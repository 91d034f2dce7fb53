import Mathlib.Data.List.Nodup
import Mathlib.Data.List.Perm.Subperm
import TripleStore.Proofs.Collection.Found
import TripleStore.Proofs.Turtle.Nesting
import TripleStore.Turtle.Layout

/-! # Inlined collections

What is known of a settled collection and its key: every triple that mentions the key is claimed by the
collection, apart from one, the link; all claims have the key as subject, and a list has one cell. -/
namespace TripleStore.Turtle

def IsBare (c : Collection) : Prop := c.form = .brackets ∧ c.triples = []

/-- A collection that can stand in the place of its key in the triple `l`. -/
structure Inlinable (g : Graph) (k : Node) (c : Collection) (l : Triple) : Prop where
  found : Found g k c
  mem : l ∈ g.toList
  unclaimed : l ∉ c.claims
  only : ∀ t ∈ g.toList, t.mentions k = true → t = l ∨ t ∈ c.claims
  place : l.object = k ∧ l.subject ≠ k ∨ IsBare c ∧ l.subject = k ∧ l.object ≠ k
  properties : c.form = .brackets → ∀ t ∈ c.triples, t.subject = k ∧ t.object ≠ k
  list : c.form = .list → ∃ x, c.triples = [⟨k, .rdfFirst, x⟩]

/-- The collections of a registry can stand in the places of their keys, and none within itself. -/
structure Settled (g : Graph) (r : Registry) : Prop where
  inlinable : ∀ k c, r.get? k = some c → ∃ l, Inlinable g k c l
  acyclic : Acyclic r

theorem mem_links {g : Graph} {k : Node} {c : Collection} {t : Triple} :
    t ∈ links g k c ↔ (t ∈ g.toList ∧ t.mentions k = true) ∧ t ∉ c.claims := by
  simp [links, Graph.mem_mentioning]

/-- Besides the link, the triples that mention the first cell of a list are claims; so many as are
counted for a list of several cells cannot be. -/
theorem one_cell {g : Graph} {k : Node} {c : Collection} {l : Triple} (hf : Found g k c)
    (he : Analysis.isEligible g k c = true) (hl : links g k c = [l]) (hc : c.form = .list) :
    ∃ x, c.triples = [⟨k, .rdfFirst, x⟩] := by
  obtain ⟨first, firsts, hts, hk, hp⟩ := hf.list hc
  have counted : g.countMentions k = 3 * c.size - 1 + 1 := by simpa [Analysis.isEligible, hc] using he
  have sub : ((g.mentioning k).filter c.claims.contains).length ≤ c.claims.length := by
    refine (List.subperm_of_subset ((g.nodup_mentioning k).filter _) fun t ht => ?_).length_le
    simpa using (List.mem_filter.mp ht).2
  have claims : c.claims.length = 2 * c.size := by
    simp only [Collection.claims, hc, length_listClaims, Collection.size]
  have split := (g.mentioning k).length_eq_length_filter_add c.claims.contains
  have one : ((g.mentioning k).filter fun t => !c.claims.contains t).length = 1 := by
    rw [← links, hl]; rfl
  have size : c.size = firsts.length + 1 := by rw [Collection.size, hts, List.length_cons]
  rw [Graph.countMentions] at counted
  -- Eligibility counts three triples a cell, but there are two claims a cell and one link.
  have none : firsts = [] := List.length_eq_zero_iff.mp (by omega)
  have pred : first.predicate = .rdfFirst := hp first (by rw [hts]; exact List.mem_cons_self)
  exact ⟨first.object, by rw [hts, none, ← hk, ← pred]⟩

theorem inlinable_of_canBeInlined {g : Graph} {k : Node} {c : Collection} (hf : Found g k c)
    (he : Analysis.isEligible g k c = true) (h : canBeInlined g k c = true) :
    ∃ l, Inlinable g k c l := by
  unfold canBeInlined at h
  split at h
  next l hl =>
    obtain ⟨⟨hm, -⟩, hu⟩ : (l ∈ g.toList ∧ l.mentions k = true) ∧ l ∉ c.claims :=
      mem_links.mp (hl ▸ List.mem_singleton_self l)
    have only : ∀ t ∈ g.toList, t.mentions k = true → t = l ∨ t ∈ c.claims := by
      intro t ht htk
      by_cases hc : t ∈ c.claims
      · exact .inr hc
      · exact .inl (List.mem_singleton.mp (hl ▸ mem_links.mpr ⟨⟨ht, htk⟩, hc⟩))
    refine ⟨l, hf, hm, hu, only, ?_, ?_, one_cell hf he hl⟩
    · split at h
      next hform =>
        split at h
        next hempty =>
          have bare : IsBare c := ⟨hform, List.isEmpty_iff.mp hempty⟩
          by_cases hs : l.subject = k
          · exact .inr ⟨bare, hs, by simpa [hs] using h⟩
          · exact .inl ⟨by simpa [hs] using h, hs⟩
        next =>
          simp only [Bool.and_eq_true, decide_eq_true_eq] at h
          exact .inl h.1
      next =>
        simp only [Bool.and_eq_true, decide_eq_true_eq] at h
        exact .inl h.1
    · intro hform t ht
      have hne : c.isEmpty = false := by
        rw [Collection.isEmpty, List.isEmpty_eq_false_iff]
        exact List.ne_nil_of_mem ht
      simp only [hform, hne, Bool.false_eq_true, if_false, Bool.and_eq_true, List.all_eq_true,
        decide_eq_true_eq] at h
      exact h.2 t ht
  next => simp at h

theorem settled_settle {g : Graph} {mode : SearchMode} {a : Analysis} (h : g.collections mode = .ok a) :
    Settled g (settle g a.registry) := by
  refine ⟨fun k c hk => ?_, acyclic_settle g a.registry⟩
  have hk := Registry.get?_filter_eq_some.mp (Registry.get?_filter_eq_some.mp hk).1
  obtain ⟨hf, he⟩ := Graph.collections_found h hk.1
  exact inlinable_of_canBeInlined hf he hk.2

theorem settled_collectionsFor {level : Level} {g : Graph} {r : Registry}
    (h : collectionsFor level g = .ok r) : Settled g r := by
  unfold collectionsFor at h
  split at h
  · obtain ⟨a, ha, rfl⟩ := exists_of_map_eq_ok h
    exact settled_settle ha
  · obtain rfl := Except.ok.inj h
    exact ⟨fun k c hk => by simp at hk, acyclic_empty⟩

namespace Inlinable
variable {g : Graph} {k : Node} {c : Collection} {l : Triple}

theorem claims_of_list (h : Inlinable g k c l) (hc : c.form = .list) :
    ∃ x, c.triples = [⟨k, .rdfFirst, x⟩] ∧ c.claims = [⟨k, .rdfFirst, x⟩, ⟨k, .rdfRest, .rdfNil⟩] := by
  obtain ⟨x, hx⟩ := h.list hc
  exact ⟨x, hx, by simp [Collection.claims, hc, hx, Collection.listClaims]⟩

theorem claims_of_brackets (hc : c.form = .brackets) : c.claims = c.triples := by
  simp [Collection.claims, hc]

theorem subject_of_claim (h : Inlinable g k c l) {t : Triple} (ht : t ∈ c.claims) : t.subject = k := by
  cases hc : c.form with
  | brackets => exact (h.properties hc t (claims_of_brackets hc ▸ ht)).1
  | list =>
    obtain ⟨x, -, hx⟩ := h.claims_of_list hc
    rw [hx] at ht
    rcases List.mem_pair.mp ht with rfl | rfl <;> rfl

theorem nodup_claims (h : Inlinable g k c l) : c.claims.Nodup := by
  cases hc : c.form with
  | brackets => exact claims_of_brackets hc ▸ (h.found.brackets hc).1
  | list =>
    obtain ⟨x, -, hx⟩ := h.claims_of_list hc
    rw [hx]
    have distinct : (Node.rdfFirst = .rdfRest) = False := by decide
    simp [distinct]

theorem mem_triples_of_claim (h : Inlinable g k c l) {t : Triple} (ht : t ∈ c.claims)
    (hb : t.object.isBlank = true) : t ∈ c.triples := by
  cases hc : c.form with
  | brackets => exact claims_of_brackets hc ▸ ht
  | list =>
    obtain ⟨x, hts, hx⟩ := h.claims_of_list hc
    rw [hx] at ht
    rcases List.mem_pair.mp ht with rfl | rfl
    · rw [hts]
      exact List.mem_singleton_self _
    · have : Node.rdfNil.isBlank = false := rfl
      exact absurd hb (by simp [this])

theorem mem_items_of_claim (h : Inlinable g k c l) {t : Triple} (ht : t ∈ c.claims)
    (hb : t.object.isBlank = true) : t.object ∈ c.items :=
  List.mem_map_of_mem (h.mem_triples_of_claim ht hb)

end Inlinable

namespace Settled
variable {g : Graph} {r : Registry} {k : Node} {c : Collection} {l : Triple}

theorem exists_inlinable (h : Settled g r) (hk : r.contains k = true) :
    ∃ c l, r.get? k = some c ∧ Inlinable g k c l := by
  obtain ⟨c, hc⟩ := Registry.contains_iff.mp hk
  obtain ⟨l, hl⟩ := h.inlinable k c hc
  exact ⟨c, l, hc, hl⟩

theorem object_ne (h : Settled g r) (hk : r.get? k = some c) (hl : Inlinable g k c l) {t : Triple}
    (ht : t ∈ c.claims) : t.object ≠ k := by
  rintro ho
  have item := hl.mem_items_of_claim ht (ho ▸ hl.found.blank)
  have : Holds r k k := mem_children.mpr ⟨c, hk, ho ▸ item, Registry.contains_iff.mpr ⟨c, hk⟩⟩
  exact h.acyclic k (.single this)

theorem eq_link_of_object (h : Settled g r) (hk : r.get? k = some c) (hl : Inlinable g k c l)
    {t : Triple} (ht : t ∈ g.toList) (ho : t.object = k) : t = l :=
  (hl.only t ht (by simp [Triple.mentions, ho])).resolve_right fun hc => h.object_ne hk hl hc ho

theorem eq_of_claim (h : Settled g r) {k' : Node} {c' : Collection} (hk : r.get? k = some c)
    (hk' : r.get? k' = some c') {t : Triple} (ht : t ∈ c.claims) (ht' : t ∈ c'.claims) : k = k' := by
  obtain ⟨l, hl⟩ := h.inlinable k c hk
  obtain ⟨l', hl'⟩ := h.inlinable k' c' hk'
  rw [← hl.subject_of_claim ht, hl'.subject_of_claim ht']

end Settled
end TripleStore.Turtle
