import Mathlib.Data.List.Nodup
import TripleStore.Graph.Lookup

/-! # Matching triples

A look-up by any combination of positions is a filter of the triples of a graph, and so is, up to
order, the look-up of the triples that mention a node. -/
namespace TripleStore

theorem eq_singleton_of_nodup {α : Type} {l : List α} {a : α} (nodup : l.Nodup)
    (h : ∀ b, b ∈ l ↔ b = a) : l = [a] :=
  List.perm_singleton.mp ((List.perm_ext_iff_of_nodup nodup (List.nodup_singleton a)).mpr
    fun b => by rw [h, List.mem_singleton])

theorem filter_eq_singleton_iff {α : Type} {l : List α} (nodup : l.Nodup) {p : α → Bool} {a : α} :
    l.filter p = [a] ↔ ∀ b, (b ∈ l ∧ p b = true) ↔ b = a := by
  simp only [← List.mem_filter]
  constructor
  · intro h b
    rw [h, List.mem_singleton]
  · exact eq_singleton_of_nodup (nodup.filter p)

theorem existsUnique_mem_iff_length {α : Type} {l : List α} (nodup : l.Nodup) :
    (∃! a, a ∈ l) ↔ l.length = 1 := by
  rw [List.length_eq_one_iff]
  constructor
  · rintro ⟨a, ha, only⟩
    exact ⟨a, eq_singleton_of_nodup nodup fun b => ⟨only b, fun h => h ▸ ha⟩⟩
  · rintro ⟨a, rfl⟩
    exact ⟨a, List.mem_singleton_self a, fun b => List.mem_singleton.mp⟩

theorem two_le_length_iff {α : Type} {l : List α} (nodup : l.Nodup) :
    (∃ a b rest, l = a :: b :: rest) ↔ ∃ a ∈ l, ∃ b ∈ l, a ≠ b := by
  constructor
  · rintro ⟨a, b, rest, rfl⟩
    have ne : a ≠ b := fun same => (List.nodup_cons.mp nodup).1 (same ▸ List.mem_cons_self)
    exact ⟨a, by simp, b, by simp, ne⟩
  · rintro ⟨a, ha, b, hb, ne⟩
    cases l with
    | nil => exact absurd ha List.not_mem_nil
    | cons c rest =>
      cases rest with
      | nil => exact absurd ((List.mem_singleton.mp ha).trans (List.mem_singleton.mp hb).symm) ne
      | cons d rest => exact ⟨c, d, rest, rfl⟩

namespace Graph

theorem contains_eq_decide (g : Graph) (t : Triple) : g.contains t = decide (t ∈ g.toList) := by
  rw [Bool.eq_iff_iff, contains_iff, decide_eq_true_eq]

private theorem matching_all_given (g : Graph) (s p o : Node) :
    g.matching (some s) (some p) (some o) =
      g.toList.filter fun t => t.subject = s ∧ t.predicate = p ∧ t.object = o := by
  have key : (fun t : Triple => decide (t.subject = s ∧ t.predicate = p ∧ t.object = o)) =
      fun t => t == ⟨s, p, o⟩ := by
    funext t
    rw [Bool.eq_iff_iff, decide_eq_true_eq, beq_iff_eq]
    cases t
    simp
  rw [key, List.filter_beq, matching, contains_eq_decide]
  by_cases h : (⟨s, p, o⟩ : Triple) ∈ g.toList
  · rw [List.count_eq_one_of_mem g.nodup h]
    simp [h]
  · rw [List.count_eq_zero_of_not_mem h]
    simp [h]

/-- The matching triples in the order of the graph. -/
theorem matching_eq (g : Graph) (s p o : Option Node) :
    g.matching s p o = g.toList.filter fun t =>
      (∀ n ∈ s, t.subject = n) ∧ (∀ n ∈ p, t.predicate = n) ∧ ∀ n ∈ o, t.object = n := by
  cases s with
  | none =>
    cases p with
    | none =>
      cases o with
      | none => simp [matching]
      | some o => simpa [matching] using g.withObject_eq o
    | some p =>
      cases o with
      | none => simpa [matching] using g.withPredicate_eq p
      | some o => simpa [matching] using g.withPredicateObject_eq p o
  | some s =>
    cases p with
    | none =>
      cases o with
      | none => simpa [matching] using g.withSubject_eq s
      | some o => simpa [matching] using g.withSubjectObject_eq s o
    | some p =>
      cases o with
      | none => simpa [matching] using g.withSubjectPredicate_eq s p
      | some o => simpa using matching_all_given g s p o

theorem mem_mentioning {g : Graph} {n : Node} {t : Triple} :
    t ∈ g.mentioning n ↔ t ∈ g.toList ∧ t.mentions n = true := by
  simp only [mentioning, withSubject_eq, withPredicate_eq, withObject_eq, List.mem_append,
    List.mem_filter, Triple.mentions]
  grind

theorem nodup_mentioning (g : Graph) (n : Node) : (g.mentioning n).Nodup := by
  simp only [mentioning, withSubject_eq, withPredicate_eq, withObject_eq]
  refine List.nodup_append.mpr ⟨List.nodup_append.mpr ⟨?_, ?_, ?_⟩, ?_, ?_⟩
  · exact g.nodup.filter _
  · exact (g.nodup.filter _).filter _
  · intro a ha b hb e
    simp only [List.mem_filter] at ha hb
    grind
  · exact (g.nodup.filter _).filter _
  · intro a ha b hb e
    simp only [List.mem_filter, List.mem_append] at ha hb
    grind

theorem mentioning_perm (g : Graph) (n : Node) :
    (g.mentioning n).Perm (g.toList.filter (·.mentions n)) := by
  refine (List.perm_ext_iff_of_nodup (g.nodup_mentioning n) (g.nodup.filter _)).mpr fun t => ?_
  rw [mem_mentioning, List.mem_filter]

theorem mem_blankNodes {g : Graph} {n : Node} :
    n ∈ g.blankNodes ↔ n.isBlank = true ∧ ∃ t ∈ g.toList, t.subject = n ∨ t.object = n :=
  Triple.mem_blankNodes

end Graph
end TripleStore
