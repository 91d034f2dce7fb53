import TripleStore.Evaluation

/-! # Substitution

Putting the nodes of a solution in the place of the binding names of a pattern. A triple fits a pattern
when it is the result of some substitution, and then the solution of the triple is the one. -/
namespace TripleStore

/-- The node that an item stands for under a solution. -/
def Item.under? (σ : Solution) : Item → Option Node
  | .fixed n => some n
  | .var x | .placeholder x => σ.get? x

namespace Pattern

/-- The triple that a pattern stands for under a solution that binds its names. -/
def substitute? (p : Pattern) (σ : Solution) : Option Triple :=
  (p.subject.under? σ).bind fun s =>
    (p.predicate.under? σ).bind fun q => (p.object.under? σ).map fun o => ⟨s, q, o⟩

theorem substitute?_eq_some_iff {p : Pattern} {σ : Solution} {t : Triple} :
    p.substitute? σ = some t ↔ ∀ pos, (p.item pos).under? σ = some (t.nodeAt pos) := by
  constructor
  · intro h pos
    simp only [substitute?, Option.bind_eq_some_iff, Option.map_eq_some_iff] at h
    obtain ⟨s, hs, q, hq, o, ho, rfl⟩ := h
    cases pos with
    | subject => exact hs
    | predicate => exact hq
    | object => exact ho
  · intro h
    have hs : p.subject.under? σ = some t.subject := h .subject
    have hq : p.predicate.under? σ = some t.predicate := h .predicate
    have ho : p.object.under? σ = some t.object := h .object
    simp [substitute?, hs, hq, ho]

theorem mem_all (pos : Position) : pos ∈ Position.all := by
  cases pos <;> simp [Position.all]

theorem binding?_of_firstPosition? {p : Pattern} {x : String} {pos : Position}
    (h : p.firstPosition? x = some pos) : (p.item pos).binding? = some x := by
  simpa using List.find?_some h

theorem isSome_firstPosition?_iff {p : Pattern} {x : String} :
    (p.firstPosition? x).isSome = true ↔ ∃ pos, (p.item pos).binding? = some x := by
  simp only [firstPosition?, List.find?_isSome, decide_eq_true_eq]
  exact ⟨fun ⟨pos, _, h⟩ => ⟨pos, h⟩, fun ⟨pos, h⟩ => ⟨pos, mem_all pos, h⟩⟩

theorem exists_firstPosition? {p : Pattern} {pos : Position} {x : String}
    (h : (p.item pos).binding? = some x) : ∃ first, p.firstPosition? x = some first :=
  Option.isSome_iff_exists.mp (isSome_firstPosition?_iff.mpr ⟨pos, h⟩)

theorem mem_items_iff {p : Pattern} {i : Item} : i ∈ p.items ↔ ∃ pos, p.item pos = i := by
  simp only [items, List.mem_cons, List.not_mem_nil, or_false]
  constructor
  · rintro (rfl | rfl | rfl)
    · exact ⟨.subject, rfl⟩
    · exact ⟨.predicate, rfl⟩
    · exact ⟨.object, rfl⟩
  · rintro ⟨pos, rfl⟩
    cases pos with
    | subject => exact .inl rfl
    | predicate => exact .inr (.inl rfl)
    | object => exact .inr (.inr rfl)

theorem mem_filterMap_binding? {p : Pattern} {x : String} :
    x ∈ p.items.filterMap Item.binding? ↔ ∃ pos, (p.item pos).binding? = some x := by
  simp only [List.mem_filterMap, mem_items_iff]
  exact ⟨fun ⟨_, ⟨pos, e⟩, h⟩ => ⟨pos, e ▸ h⟩, fun ⟨pos, h⟩ => ⟨_, ⟨pos, rfl⟩, h⟩⟩

theorem mem_names_iff {p : Pattern} {x : String} :
    x ∈ p.names ↔ ∃ pos, (p.item pos).binding? = some x := by
  rw [names, NameMap.mem_names, nameSet, NameSet.contains_ofNames, mem_filterMap_binding?]

theorem get?_bindAt (p : Pattern) (t : Triple) (row : Solution) (pos : Position) (x : String) :
    (p.bindAt t row pos).get? x =
      if p.firstPosition? x = some pos then some (t.nodeAt pos) else row.get? x := by
  cases hb : (p.item pos).binding? with
  | none =>
    have hx : p.firstPosition? x ≠ some pos := fun h => by simp [binding?_of_firstPosition? h] at hb
    simp [bindAt, hb, hx]
  | some name =>
    by_cases hx : x = name
    · subst hx
      by_cases hf : p.firstPosition? x = some pos <;> simp [bindAt, isRepeated, hb, hf]
    · have hx' : p.firstPosition? x ≠ some pos := fun h => by
        have := binding?_of_firstPosition? h
        rw [hb] at this
        exact hx (Option.some.inj this).symm
      by_cases hf : p.firstPosition? name = some pos <;> simp [bindAt, isRepeated, hb, hf, hx, hx']

theorem get?_solution (p : Pattern) (t : Triple) (x : String) :
    (p.solution t).get? x = (p.firstPosition? x).map t.nodeAt := by
  simp only [solution, Position.all, List.foldl_cons, List.foldl_nil, get?_bindAt, NameMap.get?_empty]
  cases p.firstPosition? x with
  | none => simp
  | some pos => cases pos <;> simp

theorem contains_solution_iff {p : Pattern} {t : Triple} {x : String} :
    (p.solution t).contains x = true ↔ x ∈ p.names := by
  rw [NameMap.contains, get?_solution, Option.isSome_map, isSome_firstPosition?_iff, mem_names_iff]

/-- A triple fits when it has the fixed nodes and equal nodes where a name is repeated. -/
def Fits (p : Pattern) (t : Triple) : Prop := p.substitute? (p.solution t) = some t

theorem under?_of_binding? {i : Item} {x : String} (h : i.binding? = some x) (σ : Solution) :
    i.under? σ = σ.get? x := by
  cases i with
  | fixed n => simp [Item.binding?] at h
  | var y => rw [← Option.some.inj h, Item.under?]
  | placeholder y => rw [← Option.some.inj h, Item.under?]

/-- A substitution of the names of a pattern that gives a triple is the solution of the triple. -/
theorem eq_solution_of_substitute? {p : Pattern} {σ : Solution} {t : Triple}
    (h : p.substitute? σ = some t) (hd : ∀ x, σ.contains x = true ↔ x ∈ p.names) :
    σ = p.solution t := by
  refine NameMap.ext fun x => ?_
  rw [get?_solution]
  cases hf : p.firstPosition? x with
  | none =>
    have hx : ¬ σ.contains x = true := by
      rw [hd, mem_names_iff, ← isSome_firstPosition?_iff, hf]
      simp
    simpa [NameMap.contains] using hx
  | some pos =>
    have := substitute?_eq_some_iff.mp h pos
    rwa [under?_of_binding? (binding?_of_firstPosition? hf)] at this

end Pattern
end TripleStore
