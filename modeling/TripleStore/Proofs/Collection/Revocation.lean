import Mathlib.Logic.Function.Iterate
import TripleStore.Proofs.Collection.Phases

/-! # Revocation

A revocation decides on all brackets by the claims that were made before it. Brackets that it revokes give
up their claims, and a triple that is released in this way can be one mention too many for brackets that
are left. The main statement says how the mentions grow, when a second revocation has nothing to do, and
that revocations come to an end. -/
namespace TripleStore.Analysis

/-- The triples that mention a node and are not claimed. -/
def unclaimedMentions (g : Graph) (a : Analysis) (k : Node) : List Triple :=
  (g.mentioning k).filter fun t => !a.isClaimed t

/-- All brackets are mentioned by at most one unclaimed triple more than they hold. -/
def IsStable (g : Graph) (a : Analysis) : Prop :=
  ∀ k c, a.registry.get? k = some c → c.form = .brackets → (unclaimedMentions g a k).length ≤ c.size + 1

/-- The triples whose claims a revocation gives up. -/
def released (g : Graph) (a : Analysis) : List Triple := a.claimed.filter fun t => !(revoke g a).isClaimed t

section
variable {g : Graph} {a : Analysis} {k : Node} {c : Collection} {t : Triple}

theorem isClaimed_iff : a.isClaimed t = true ↔ t ∈ a.claimed := List.contains_iff_mem

theorem not_isClaimed_iff : (!a.isClaimed t) = true ↔ t ∉ a.claimed := by
  rw [Bool.not_eq_true', ← Bool.not_eq_true, isClaimed_iff]

theorem mem_released : t ∈ released g a ↔ t ∈ a.claimed ∧ t ∉ (revoke g a).claimed := by
  rw [released, List.mem_filter, not_isClaimed_iff]

theorem isOverused_eq_false_iff : isOverused g a.claimed k c = false ↔
    (c.form = .brackets → (unclaimedMentions g a k).length ≤ c.size + 1) := by
  rw [isOverused, Bool.and_eq_false_imp, decide_eq_true_eq, decide_eq_false_iff_not, Nat.not_lt]
  rfl

theorem isStable_iff : IsStable g a ↔ ∀ k c, a.registry.get? k = some c →
    isOverused g a.claimed k c = false := by
  simp only [IsStable, isOverused_eq_false_iff]

theorem revoke_eq_self_iff : revoke g a = a ↔ IsStable g a := by
  rw [isStable_iff]
  constructor
  · intro same k c hk
    rw [← same] at hk
    exact (get?_revoke.mp hk).2
  · intro stable
    unfold revoke
    split
    next some =>
      obtain ⟨e, he, overused⟩ := List.any_eq_true.mp some
      have not := stable e.1 e.2 (Registry.mem_entries.mp he)
      rw [overused] at not
      exact absurd not (by decide)
    next => rfl

/-- A revocation that changes anything revokes a collection. -/
theorem size_revoke_lt (h : ¬ IsStable g a) : (revoke g a).registry.size < a.registry.size := by
  simp only [isStable_iff, not_forall, Bool.not_eq_false] at h
  obtain ⟨k, c, hk, overused⟩ := h
  have member : (k, c) ∈ a.registry.entries := Registry.mem_entries.mpr hk
  have some : (a.registry.entries.any fun e => isOverused g a.claimed e.1 e.2) = true :=
    List.any_eq_true.mpr ⟨(k, c), member, overused⟩
  rw [revoke, if_pos some]
  exact List.length_filter_lt_length_iff_exists.mpr ⟨(k, c), member, by simpa using overused⟩

/-- As many revocations as there are collections reach a stable state. -/
theorem isStable_iterate {n : Nat} (h : a.registry.size ≤ n) : IsStable g ((revoke g)^[n] a) := by
  induction n generalizing a with
  | zero =>
    intro k c hk
    have none : a.registry.entries = [] := List.length_eq_zero_iff.mp (Nat.le_zero.mp h)
    have entry : (k, c) ∈ a.registry.entries := Registry.mem_entries.mpr hk
    rw [none] at entry
    exact absurd entry List.not_mem_nil
  | succ n ih =>
    by_cases stable : IsStable g a
    · rwa [Function.iterate_fixed (revoke_eq_self_iff.mpr stable)]
    · rw [Function.iterate_succ_apply]
      apply ih
      have fewer := size_revoke_lt stable
      omega

/-- What is claimed after a revocation was claimed before. -/
theorem IsCurrent.claimed_revoke (current : a.IsCurrent) (h : t ∈ (revoke g a).claimed) :
    t ∈ a.claimed := by
  obtain ⟨k, c, hk, claim⟩ := ((isCurrent_revoke g current).isAccurate t).mp h
  exact (current.isAccurate t).mpr ⟨k, c, (get?_revoke.mp hk).1, claim⟩

/-- A released triple belongs to brackets that are revoked. -/
theorem IsCurrent.exists_revoked (current : a.IsCurrent) (h : t ∈ released g a) :
    ∃ x d, a.registry.get? x = some d ∧ d.form = .brackets ∧ (revoke g a).registry.get? x = none ∧
      t ∈ d.triples := by
  obtain ⟨before, after⟩ := mem_released.mp h
  obtain ⟨x, d, hx, claim⟩ := (current.isAccurate t).mp before
  have revoked : isOverused g a.claimed x d = true := by
    by_contra kept
    apply after
    exact ((isCurrent_revoke g current).isAccurate t).mpr
      ⟨x, d, get?_revoke.mpr ⟨hx, by simpa using kept⟩, claim⟩
  have form : d.form = .brackets := by
    rw [isOverused, Bool.and_eq_true, decide_eq_true_eq] at revoked
    exact revoked.1
  refine ⟨x, d, hx, form, ?_, ?_⟩
  · refine Option.eq_none_iff_forall_ne_some.mpr fun d' hd' => ?_
    obtain ⟨hx', kept⟩ := get?_revoke.mp hd'
    rw [Option.some.inj (hx'.symm.trans hx), revoked] at kept
    exact absurd kept (by decide)
  · rwa [Collection.claims, form] at claim

/-- A revocation adds the released triples to the unclaimed mentions of a node. -/
theorem IsCurrent.length_unclaimedMentions (current : a.IsCurrent) (k : Node) :
    (unclaimedMentions g (revoke g a) k).length =
      (unclaimedMentions g a k).length + ((g.mentioning k).filter fun t => t ∈ released g a).length := by
  have parts := (unclaimedMentions g (revoke g a) k).length_eq_length_filter_add fun t => !a.isClaimed t
  rw [parts, unclaimedMentions, unclaimedMentions, List.filter_filter, List.filter_filter]
  congr 2
  · refine List.filter_congr fun t _ => ?_
    rw [Bool.eq_iff_iff, Bool.and_eq_true, not_isClaimed_iff, not_isClaimed_iff]
    exact and_iff_left_of_imp fun free claimed => free (current.claimed_revoke claimed)
  · refine List.filter_congr fun t _ => ?_
    rw [Bool.eq_iff_iff, Bool.and_eq_true, Bool.not_not, isClaimed_iff, not_isClaimed_iff,
      decide_eq_true_eq, mem_released]

end

/-- Phases without claims and then a claiming leave just the claims of the registered collections. -/
theorem isCurrent_after {g : Graph} {ps : List Phase} (h : ∀ p ∈ ps, p.claims = false) :
    (after g (ps ++ [.claiming])).IsCurrent := by
  rw [after_append]
  exact isCurrent_claim fun _ => claimed_after h

/-- After a revocation, the brackets that are left are mentioned by the triples that were unclaimed before,
at most one more than they hold, and by the released triples, which belonged to revoked brackets. If no
released triple mentions the node of brackets that are left, the state is stable. A second revocation
changes nothing if and only if the state is stable, and as many revocations as there are collections reach
a stable state. -/
theorem revoke_releases {g : Graph} {ps : List Phase} (h : ∀ p ∈ ps, p.claims = false) :
    let a := after g (ps ++ [.claiming])
    let b := revoke g a
    (∀ k c, b.registry.get? k = some c → c.form = .brackets →
      (unclaimedMentions g b k).length =
          (unclaimedMentions g a k).length + ((g.mentioning k).filter fun t => t ∈ released g a).length ∧
        (unclaimedMentions g a k).length ≤ c.size + 1) ∧
      (∀ t ∈ released g a, ∃ x d, a.registry.get? x = some d ∧ d.form = .brackets ∧
        b.registry.get? x = none ∧ t ∈ d.triples) ∧
      ((∀ k c, b.registry.get? k = some c → c.form = .brackets → ∀ t ∈ released g a,
        t.mentions k = false) → IsStable g b) ∧
      (revoke g b = b ↔ IsStable g b) ∧
      IsStable g ((revoke g)^[a.registry.size] a) := by
  intro a b
  have current : a.IsCurrent := isCurrent_after h
  have before {k : Node} {c : Collection} (hk : b.registry.get? k = some c) (hc : c.form = .brackets) :
      (unclaimedMentions g a k).length ≤ c.size + 1 :=
    isOverused_eq_false_iff.mp (get?_revoke.mp hk).2 hc
  have grown (k : Node) := current.length_unclaimedMentions (g := g) k
  refine ⟨fun k c hk hc => ⟨grown k, before hk hc⟩, fun t ht => current.exists_revoked ht,
    fun apart k c hk hc => ?_, revoke_eq_self_iff, isStable_iterate (Nat.le_refl _)⟩
  have none : ((g.mentioning k).filter fun t => t ∈ released g a) = [] := by
    refine List.filter_eq_nil_iff.mpr fun t mention => ?_
    rw [decide_eq_true_eq]
    intro ht
    have mentions := (Graph.mem_mentioning.mp mention).2
    rw [apart k c hk hc t ht] at mentions
    exact absurd mentions (by decide)
  rw [grown k, none, List.length_nil, Nat.add_zero]
  exact before hk hc

/-- A blank node with a reference, two items and a property, the object of which is one of the items. -/
def itemInBrackets : Graph :=
  let s := Node.iri "http://example.com/s"
  let p := Node.iri "http://example.com/p"
  .ofList [⟨s, p, .blank "x"⟩, ⟨.blank "x", p, .blank "y"⟩, ⟨.blank "x", .rdfFirst, .blank "y"⟩,
    ⟨.blank "x", .rdfFirst, s⟩]

theorem eq_of_entries {a b : Analysis} (entries : a.registry.entries = b.registry.entries)
    (claimed : a.claimed = b.claimed) : a = b := by
  obtain ⟨⟨es, nodup⟩, ts⟩ := a
  obtain rfl : es = b.registry.entries := entries
  obtain rfl : ts = b.claimed := claimed
  rfl

/-- Both blank nodes are found as brackets, and the property is claimed. -/
theorem after_itemInBrackets :
    let property : Triple := ⟨.blank "x", .iri "http://example.com/p", .blank "y"⟩
    after itemInBrackets ([.lists, .brackets, .eligibility, .cycles] ++ [.claiming]) =
      ⟨⟨[(.blank "x", .brackets [property]), (.blank "y", .brackets [])], by decide⟩, [property]⟩ := by
  intro property
  let b : Analysis := dropIneligible itemInBrackets (findBrackets itemInBrackets start)
  have entries : b.registry.entries =
      [(.blank "x", .brackets [property]), (.blank "y", .brackets [])] := by decide
  have acyclic : cyclicKeys b.registry = [] := by
    have sorted : (b.registry.entries.mergeSort fun c d => d.2.size ≤ c.2.size) = b.registry.entries :=
      List.mergeSort_of_pairwise (by decide)
    rw [cyclicKeys, dependencyLists, sorted]
    decide
  have prepared : after itemInBrackets ([.lists, .brackets, .eligibility, .cycles] ++ [.claiming]) =
      claim (dropCyclic b) := by
    have none : tails itemInBrackets = [] := by decide
    simp only [after, List.cons_append, List.nil_append, List.foldl_cons, List.foldl_nil, Phase.apply, none]
    rfl
  rw [prepared, dropCyclic, acyclic]
  exact eq_of_entries (by decide) (by decide)

/-- When the outer brackets are revoked, two unclaimed triples mention the empty brackets. -/
theorem not_isStable_itemInBrackets :
    ¬ IsStable itemInBrackets (revoke itemInBrackets
      (after itemInBrackets ([.lists, .brackets, .eligibility, .cycles] ++ [.claiming]))) := by
  have revoked : revoke itemInBrackets
      (after itemInBrackets ([.lists, .brackets, .eligibility, .cycles] ++ [.claiming])) =
        ⟨⟨[(.blank "y", .brackets [])], by decide⟩, []⟩ := by
    rw [after_itemInBrackets]
    exact eq_of_entries (by decide) (by decide)
  rw [revoked]
  intro stable
  have few := stable (.blank "y") (.brackets []) (by decide) rfl
  exact absurd few (by decide)

/-- A second revocation revokes the inner brackets, which the first one has left. -/
theorem revoke_releases_item :
    let g := itemInBrackets
    let a := after g ([.lists, .brackets, .eligibility, .cycles] ++ [.claiming])
    (∀ p ∈ [Phase.lists, .brackets, .eligibility, .cycles], p.claims = false) ∧
      revoke g (revoke g a) ≠ revoke g a ∧ IsStable g ((revoke g)^[2] a) := by
  intro g a
  have unclaimed : ∀ p ∈ [Phase.lists, .brackets, .eligibility, .cycles], p.claims = false := by decide
  obtain ⟨-, -, -, again, stable⟩ := revoke_releases (g := g) unclaimed
  have size : a.registry.size = 2 := by
    simp only [a, g, after_itemInBrackets]
    rfl
  have twice : IsStable g ((revoke g)^[2] a) := by
    rw [← size]
    exact stable
  exact ⟨unclaimed, fun same => not_isStable_itemInBrackets (again.mp same), twice⟩

/-- One revocation can leave a state that is not stable. -/
theorem revoke_unstable : ¬ ∀ g : Graph, (∀ t ∈ g.toList, t.isLegal = true) →
    let b := revoke g (after g ([.lists, .brackets, .eligibility, .cycles] ++ [.claiming]))
    IsStable g b ∧ revoke g b = b := by
  intro stable
  have legal : ∀ t ∈ itemInBrackets.toList, t.isLegal = true := by decide
  exact not_isStable_itemInBrackets (stable itemInBrackets legal).1

end TripleStore.Analysis
