import TripleStore.Proofs.Collection.Claimed
import TripleStore.Proofs.Turtle.Inlined

/-! # Settling

Which collections of an analysis are written inline, and what they have in common: each is mentioned once
from outside, no two claim the same triple, and none contains itself. A candidate that can be inlined gets
through the analysis and is settled, unless its key lies on a cycle of the graph. -/
namespace TripleStore.Turtle

theorem get?_settle {g : Graph} {r : Registry} {k : Node} {c : Collection} :
    (settle g r).get? k = some c ↔ (r.get? k = some c ∧ canBeInlined g k c = true) ∧
      ¬ Relation.TransGen (Holds (r.filter (canBeInlined g))) k k := by
  rw [settle, Registry.get?_filter_eq_some, Registry.get?_filter_eq_some, ← isCyclic_iff,
    Bool.not_eq_true', Bool.not_eq_true]

theorem exists_link {g : Graph} {k : Node} {c : Collection} (h : canBeInlined g k c = true) :
    ∃ l, links g k c = [l] := by
  unfold canBeInlined at h
  split at h
  next l hl => exact ⟨l, hl⟩
  next => exact absurd h Bool.false_ne_true

/-- Claims of other collections can only lower the number of mentions that are not claimed. -/
theorem not_isOverused {g : Graph} {claimed : List Triple} {k : Node} {c : Collection}
    (claims : ∀ t ∈ c.claims, t ∈ claimed) (h : canBeInlined g k c = true) :
    Analysis.isOverused g claimed k c = false := by
  obtain ⟨l, hl⟩ := exists_link h
  have fewer : ((g.mentioning k).filter (!claimed.contains ·)).length ≤ (links g k c).length := by
    refine (List.monotone_filter_right _ fun t ht => ?_).length_le
    simp only [Bool.not_eq_true', List.contains_eq_mem, decide_eq_false_iff_not] at ht ⊢
    exact fun hc => ht (claims t hc)
  rw [hl, List.length_singleton] at fewer
  rw [Analysis.isOverused, Bool.and_eq_false_iff]
  exact .inr (decide_eq_false (by omega))

section
variable {g : Graph} {mode : SearchMode} {a : Analysis}

/-- A settled key is an object of a triple of the key that holds it. -/
theorem edge_of_holds (h : g.collections mode = .ok a) {k k' : Node}
    (hold : Holds (a.registry.filter (canBeInlined g)) k k') : g.Edge k k' := by
  obtain ⟨c, hc, item, -⟩ := mem_children.mp hold
  obtain ⟨hc, inlined⟩ := Registry.get?_filter_eq_some.mp hc
  obtain ⟨found, eligible⟩ := Graph.collections_found h hc
  obtain ⟨l, hl⟩ := inlinable_of_canBeInlined found eligible inlined
  obtain ⟨t, ht, rfl⟩ := List.mem_map.mp item
  have claim := (triples_sublist_claims c).subset ht
  exact ⟨t, found.claims_mem t claim, hl.subject_of_claim claim, rfl⟩

open Analysis in
theorem get?_settle_of_candidate {b : Analysis} (legal : ∀ t ∈ g.toList, t.isLegal = true)
    (candidates : HasCandidates g mode b)
    (h : g.collections mode = .ok (revoke g (claim (cleared g b)))) {k : Node} {c : Collection}
    (hk : b.registry.get? k = some c) (eligible : isEligible g k c = true)
    (inlined : canBeInlined g k c = true) (acyclic : ¬ g.OnCycle k) :
    (settle g (revoke g (claim (cleared g b))).registry).get? k = some c := by
  have cleared_k : (cleared g b).registry.get? k = some c :=
    get?_cleared.mpr ⟨⟨hk, eligible⟩, fun cyclic => acyclic (candidates.onCycle legal cyclic)⟩
  have claims : ∀ t ∈ c.claims, t ∈ (claim (cleared g b)).claimed := by
    have current : (claim (cleared g b)).IsCurrent := isCurrent_claim fun _ => candidates.claimed
    intro t ht
    rw [current, claim_registry, Registry.mem_claims]
    exact ⟨k, c, cleared_k, ht⟩
  refine get?_settle.mpr ⟨⟨get?_revoke.mpr ⟨?_, not_isOverused claims inlined⟩, inlined⟩, fun nested => ?_⟩
  · rwa [claim_registry]
  · exact acyclic (Relation.TransGen.mono (fun _ _ => edge_of_holds h) k k nested)

end
end TripleStore.Turtle
