import Mathlib.Data.Fintype.Card
import Mathlib.Data.Set.Finite.List
import Mathlib.Logic.Relation
import TripleStore.Turtle.Settled

/-! # Nesting

Whether a collection contains itself is decided by a search that is confined to the keys. The search
finds every key that can be reached, so no settled collection is nested in itself and the settled keys
can be run through from the outermost to the innermost. -/
namespace TripleStore.Turtle

def Holds (r : Registry) (k k' : Node) : Prop := k' ∈ children r k

theorem mem_children {r : Registry} {k k' : Node} :
    k' ∈ children r k ↔ ∃ c, r.get? k = some c ∧ k' ∈ c.items ∧ r.contains k' = true := by
  unfold children
  split
  next h => simp [h]
  next c h => simp [h, List.mem_filter]

theorem mem_reached_of_mem_next {r : Registry} {left next : List Node} {n : Node} (hn : n ∈ next)
    (hl : n ∈ left) : n ∈ reached r left next := by
  fun_induction reached r left next with
  | case1 left => exact absurd hn List.not_mem_nil
  | case2 left k ks hk ih =>
    rcases eq_or_ne n k with rfl | hne
    · exact List.mem_cons_self
    · have hks : n ∈ ks := (List.mem_cons.mp hn).resolve_left hne
      have : n ∈ left.erase k := (List.mem_erase_of_ne hne).mpr hl
      exact List.mem_cons_of_mem _ (ih (List.mem_append_right _ hks) this)
  | case3 left k ks hk ih =>
    have hne : n ≠ k := fun e => hk (e ▸ hl)
    exact ih ((List.mem_cons.mp hn).resolve_left hne) hl

theorem mem_reached_of_holds {r : Registry} {left next : List Node} {a b : Node}
    (ha : a ∈ reached r left next) (hab : Holds r a b) (hb : b ∈ left) :
    b ∈ reached r left next := by
  fun_induction reached r left next with
  | case1 left => exact absurd ha List.not_mem_nil
  | case2 left k ks hk ih =>
    rcases eq_or_ne b k with rfl | hne
    · exact List.mem_cons_self
    have hl : b ∈ left.erase k := (List.mem_erase_of_ne hne).mpr hb
    apply List.mem_cons_of_mem
    rcases List.mem_cons.mp ha with rfl | ha
    · exact mem_reached_of_mem_next (List.mem_append_left _ hab) hl
    · exact ih ha hl
  | case3 left k ks hk ih => exact ih ha hb

theorem mem_reached_of_transGen {r : Registry} {k m : Node} (h : Relation.TransGen (Holds r) k m) :
    m ∈ reached r r.keys (children r k) := by
  induction h with
  | single h =>
    have := mem_children.mp h
    exact mem_reached_of_mem_next h (Registry.mem_keys.mpr (by grind))
  | tail _ h ih =>
    have := mem_children.mp h
    exact mem_reached_of_holds ih h (Registry.mem_keys.mpr (by grind))

theorem exists_of_mem_reached {r : Registry} {left next : List Node} {n : Node}
    (h : n ∈ reached r left next) : ∃ m ∈ next, Relation.ReflTransGen (Holds r) m n := by
  fun_induction reached r left next with
  | case1 left => exact absurd h List.not_mem_nil
  | case2 left k ks hk ih =>
    rcases List.mem_cons.mp h with rfl | h
    · exact ⟨n, List.mem_cons_self, .refl⟩
    · obtain ⟨m, hm, path⟩ := ih h
      rcases List.mem_append.mp hm with child | later
      · exact ⟨k, List.mem_cons_self, .head child path⟩
      · exact ⟨m, List.mem_cons_of_mem _ later, path⟩
  | case3 left k ks hk ih =>
    obtain ⟨m, hm, path⟩ := ih h
    exact ⟨m, List.mem_cons_of_mem _ hm, path⟩

/-- The search reports the keys whose collections contain themselves, and no others. -/
theorem isCyclic_iff {r : Registry} {k : Node} :
    isCyclic r k = true ↔ Relation.TransGen (Holds r) k k := by
  rw [isCyclic, List.contains_iff_mem]
  refine ⟨fun h => ?_, mem_reached_of_transGen⟩
  obtain ⟨m, child, path⟩ := exists_of_mem_reached h
  exact .head' child path

theorem holds_of_filter {r : Registry} {p : Node → Collection → Bool} {a b : Node}
    (h : Holds (r.filter p) a b) : Holds r a b := by
  obtain ⟨c, hc, hi, hb⟩ := mem_children.mp h
  obtain ⟨d, hd⟩ := Registry.contains_iff.mp hb
  have hb' : r.contains b = true :=
    Registry.contains_iff.mpr ⟨d, (Registry.get?_filter_eq_some.mp hd).1⟩
  exact mem_children.mpr ⟨c, (Registry.get?_filter_eq_some.mp hc).1, hi, hb'⟩

/-- No collection is nested in itself. -/
def Acyclic (r : Registry) : Prop := ∀ k, ¬ Relation.TransGen (Holds r) k k

theorem acyclic_empty : Acyclic .empty := by
  intro k h
  obtain ⟨m, h, -⟩ := Relation.TransGen.head'_iff.mp h
  obtain ⟨c, hc, -⟩ := mem_children.mp h
  simp at hc

theorem acyclic_settle (g : Graph) (r : Registry) : Acyclic (settle g r) := by
  intro k h
  have kept := Relation.TransGen.mono (fun _ _ h => holds_of_filter h) _ _ h
  obtain ⟨m, hk, -⟩ := Relation.TransGen.head'_iff.mp h
  obtain ⟨c, hc, -⟩ := mem_children.mp hk
  have := (Registry.get?_filter_eq_some.mp hc).2
  simp [isCyclic_iff.mpr kept] at this

/-- What holds of a key when it holds of every key that holds it, holds of every key. -/
theorem Acyclic.induction {r : Registry} (hr : Acyclic r) {P : Node → Prop}
    (step : ∀ k, r.contains k = true → (∀ k', Holds r k' k → P k') → P k) {k : Node}
    (hk : r.contains k = true) : P k := by
  let Key := {n // n ∈ r.keys}
  have : Finite Key := (List.finite_toSet r.keys).to_subtype
  let Nested (a b : Key) := Relation.TransGen (Holds r) a.1 b.1
  have : IsTrans Key Nested := ⟨fun _ _ _ => Relation.TransGen.trans⟩
  have : Std.Irrefl Nested := ⟨fun a => hr a.1⟩
  have wf : WellFounded Nested := Finite.wellFounded_of_trans_of_irrefl Nested
  have all : ∀ a : Key, P a.1 := fun a => wf.induction a fun a ih => by
    refine step a.1 (Registry.mem_keys.mp a.2) fun k' h => ?_
    have hk' : k' ∈ r.keys := by
      obtain ⟨c, hc, -⟩ := mem_children.mp h
      exact Registry.mem_keys.mpr (Registry.contains_iff.mpr ⟨c, hc⟩)
    exact ih ⟨k', hk'⟩ (.single h)
  exact all ⟨k, Registry.mem_keys.mpr hk⟩

end TripleStore.Turtle
