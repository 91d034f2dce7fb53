import TripleStore.Collection

/-! # Claims of collections

A list claims two triples for each cell: its `rdf:first` triple and the `rdf:rest` triple that links the
cell to the next one. -/
namespace TripleStore

/-- The node with which the list of some `rdf:first` triples begins. -/
def listHead : List Triple → Node
  | [] => .rdfNil
  | t :: _ => t.subject

theorem rdfRest_ne_rdfFirst : Node.rdfRest ≠ .rdfFirst := by decide

theorem ne_of_isBlank {m n : Node} (hm : m.isBlank = false) (hn : n.isBlank = true) : m ≠ n := by
  rintro rfl
  exact Bool.noConfusion (hm.symm.trans hn)

theorem listClaims_cons (t : Triple) (ts : List Triple) :
    Collection.listClaims (t :: ts) =
      t :: ⟨t.subject, .rdfRest, listHead ts⟩ :: Collection.listClaims ts := by
  cases ts <;> rfl

theorem length_listClaims (ts : List Triple) : (Collection.listClaims ts).length = 2 * ts.length := by
  induction ts with
  | nil => rfl
  | cons t ts ih =>
    rw [listClaims_cons, List.length_cons, List.length_cons, List.length_cons, ih]
    omega

theorem subject_mem_of_listClaims {ts : List Triple} {t : Triple} (h : t ∈ Collection.listClaims ts) :
    t.subject ∈ ts.map Triple.subject := by
  induction ts with
  | nil => exact absurd h List.not_mem_nil
  | cons u us ih =>
    rw [listClaims_cons] at h
    rcases List.mem_cons.mp h with rfl | h
    · exact List.mem_cons_self
    · rcases List.mem_cons.mp h with rfl | h
      · exact List.mem_cons_self
      · exact List.mem_cons_of_mem _ (ih h)

/-- A list of distinct cells claims no triple twice. -/
theorem nodup_listClaims {ts : List Triple} (cells : (ts.map Triple.subject).Nodup)
    (firsts : ∀ t ∈ ts, t.predicate = .rdfFirst) : (Collection.listClaims ts).Nodup := by
  induction ts with
  | nil => exact .nil
  | cons t ts ih =>
    obtain ⟨fresh, cells⟩ := List.nodup_cons.mp cells
    have rest := ih cells fun u hu => firsts u (List.mem_cons_of_mem _ hu)
    have other : t ≠ ⟨t.subject, .rdfRest, listHead ts⟩ := fun same =>
      rdfRest_ne_rdfFirst ((congrArg Triple.predicate same).symm.trans (firsts t List.mem_cons_self))
    rw [listClaims_cons]
    refine List.nodup_cons.mpr ⟨fun h => ?_, List.nodup_cons.mpr ⟨fun h => ?_, rest⟩⟩
    · exact (List.mem_cons.mp h).elim other fun h => fresh (subject_mem_of_listClaims h)
    · have cell := subject_mem_of_listClaims h
      exact fresh cell

section
variable {k : Node} (blank : k.isBlank = true)
include blank

/-- The triples of a list mention a blank node that is none of its cells as often as it is an item. -/
theorem countP_mentions_items {ts : List Triple} (cells : k ∉ ts.map Triple.subject)
    (firsts : ∀ t ∈ ts, t.predicate = .rdfFirst) :
    (Collection.listClaims ts).countP (·.mentions k) = ts.countP (·.object = k) := by
  induction ts with
  | nil => rfl
  | cons t ts ih =>
    have first : t.predicate = .rdfFirst := firsts t List.mem_cons_self
    obtain ⟨cell, cells⟩ : k ≠ t.subject ∧ k ∉ ts.map Triple.subject := by
      simpa only [List.map_cons, List.mem_cons, not_or] using cells
    have item : t.mentions k = decide (t.object = k) := by
      simp [Triple.mentions, cell.symm, first, ne_of_isBlank (m := .rdfFirst) rfl blank]
    have next : listHead ts ≠ k := by
      cases ts with
      | nil => exact ne_of_isBlank rfl blank
      | cons u us => exact fun h => cells (h ▸ List.mem_cons_self)
    have link : (⟨t.subject, .rdfRest, listHead ts⟩ : Triple).mentions k = false := by
      simp [Triple.mentions, cell.symm, next, ne_of_isBlank (m := .rdfRest) rfl blank]
    have rest := ih cells fun u hu => firsts u (List.mem_cons_of_mem _ hu)
    rw [listClaims_cons, List.countP_cons, List.countP_cons, List.countP_cons, rest, item, link]
    rfl

/-- The triples of a list mention its first cell twice, and as often as it is an item of another cell. -/
theorem countP_mentions_head {first : Triple} {ts : List Triple} (head : first.subject = k)
    (cells : ((first :: ts).map Triple.subject).Nodup) (firsts : ∀ t ∈ ts, t.predicate = .rdfFirst) :
    (Collection.listClaims (first :: ts)).countP (·.mentions k) = ts.countP (·.object = k) + 2 := by
  have later : k ∉ ts.map Triple.subject := head ▸ (List.nodup_cons.mp cells).1
  rw [listClaims_cons, List.countP_cons_of_pos (by simp [Triple.mentions, head]),
    List.countP_cons_of_pos (by simp [Triple.mentions, head]), countP_mentions_items blank later firsts]

end

theorem triples_sublist_claims (c : Collection) : c.triples.Sublist c.claims := by
  have list (ts : List Triple) : ts.Sublist (Collection.listClaims ts) := by
    induction ts with
    | nil => exact .slnil
    | cons t ts ih =>
      rw [listClaims_cons]
      exact (ih.cons _).cons_cons t
  unfold Collection.claims
  split
  · exact .refl _
  · exact list _

end TripleStore
