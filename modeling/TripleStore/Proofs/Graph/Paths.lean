import Mathlib.Logic.Relation
import TripleStore.Graph

/-! # Paths

The triples of a graph lead from their subjects to their objects. A path follows one or more triples. -/
namespace TripleStore.Graph
variable {g : Graph} {a b : Node}

def Edge (g : Graph) (a b : Node) : Prop := ∃ t ∈ g.toList, t.subject = a ∧ t.object = b

/-- A path leads from the node to itself. -/
def OnCycle (g : Graph) (n : Node) : Prop := Relation.TransGen g.Edge n n

theorem edge_of_mem {t : Triple} (h : t ∈ g.toList) : g.Edge t.subject t.object := ⟨t, h, rfl, rfl⟩

theorem ne_of_not_onCycle (h : ¬ g.OnCycle a) (hb : g.Edge a b) : b ≠ a := by
  rintro rfl
  exact h (.single hb)

theorem exists_object_of_onCycle (h : g.OnCycle a) : ∃ t ∈ g.toList, t.object = a := by
  obtain ⟨_, -, t, ht, -, ho⟩ := Relation.TransGen.tail'_iff.mp h
  exact ⟨t, ht, ho⟩

theorem exists_subject_of_onCycle (h : g.OnCycle a) : ∃ t ∈ g.toList, t.subject = a := by
  obtain ⟨_, ⟨t, ht, hs, -⟩, -⟩ := Relation.TransGen.head'_iff.mp h
  exact ⟨t, ht, hs⟩

/-- Along a path a rank rises that rises along every triple. -/
theorem rank_lt_of_path {rank : Node → Nat} (rises : ∀ t ∈ g.toList, rank t.subject < rank t.object)
    (h : Relation.TransGen g.Edge a b) : rank a < rank b := by
  have edge {x y : Node} : g.Edge x y → rank x < rank y := by
    rintro ⟨t, ht, rfl, rfl⟩
    exact rises t ht
  induction h with
  | single h => exact edge h
  | tail _ h ih => exact Nat.lt_trans ih (edge h)

theorem not_onCycle_of_rank (rank : Node → Nat)
    (rises : ∀ t ∈ g.toList, rank t.subject < rank t.object) : ¬ g.OnCycle a :=
  fun h => Nat.lt_irrefl _ (rank_lt_of_path rises h)

end TripleStore.Graph
