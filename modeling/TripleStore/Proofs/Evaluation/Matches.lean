import TripleStore.Proofs.Evaluation.Meaning

/-! # Matches

A match of a pattern assigns nodes to just its names so that the pattern becomes a triple of the graph.
The solutions of any pattern, with names or without, are matches: those that agree with some incoming
solution on the supplied names, or all of them where no name is supplied. -/
namespace TripleStore

namespace NameMap
variable {α : Type}

theorem eq_empty_of_contains {m : NameMap α} (h : ∀ x, m.contains x = false) : m = empty := by
  refine ext fun x => ?_
  have := h x
  rwa [contains, Option.isSome_eq_false_iff, Option.isNone_iff_eq_none] at this

end NameMap

namespace Pattern

/-- An assignment of the names of a pattern under which the pattern is a triple of a graph. -/
structure IsMatch (p : Pattern) (g : Graph) (τ : Solution) : Prop where
  names : ∀ x, τ.contains x = true ↔ x ∈ p.names
  triple : ∃ t ∈ g.toList, p.substitute? τ = some t

theorem exists_fixed_of_names_eq_nil {p : Pattern} (h : p.names = []) :
    ∃ s q o, p.subject = .fixed s ∧ p.predicate = .fixed q ∧ p.object = .fixed o := by
  have fixed (pos : Position) : ∃ n, p.item pos = .fixed n := by
    have unnamed (x : String) : (p.item pos).binding? ≠ some x := fun hx =>
      List.not_mem_nil (h ▸ mem_names_iff.mpr ⟨pos, hx⟩)
    cases hi : p.item pos with
    | fixed n => exact ⟨n, rfl⟩
    | var x => exact absurd (by rw [hi, Item.binding?]) (unnamed x)
    | placeholder x => exact absurd (by rw [hi, Item.binding?]) (unnamed x)
  obtain ⟨s, hs⟩ := fixed .subject
  obtain ⟨q, hq⟩ := fixed .predicate
  obtain ⟨o, ho⟩ := fixed .object
  exact ⟨s, q, o, hs, hq, ho⟩

/-- A pattern without names only tells whether its triple is there. -/
theorem evaluate_ground {p : Pattern} {s q o : Node} (hs : p.subject = .fixed s)
    (hq : p.predicate = .fixed q) (ho : p.object = .fixed o) (ctx : Context) :
    p.evaluate ctx = if ctx.graph.contains ⟨s, q, o⟩ then .identity else .null := by
  simp only [evaluate, hs, hq, ho]

theorem columns_evaluate (p : Pattern) (ctx : Context) : (p.evaluate ctx).columns = p.names := by
  by_cases h : p.names = []
  · obtain ⟨s, q, o, hs, hq, ho⟩ := exists_fixed_of_names_eq_nil h
    rw [evaluate_ground hs hq ho, h]
    split <;> rfl
  · rw [evaluate_eq h]
    rfl

private theorem mem_evaluate_ground {p : Pattern} (h : p.names = []) {ctx : Context} {τ : Solution} :
    τ ∈ (p.evaluate ctx).rows ↔ p.IsMatch ctx.graph τ := by
  obtain ⟨s, q, o, hs, hq, ho⟩ := exists_fixed_of_names_eq_nil h
  have substituted (τ : Solution) : p.substitute? τ = some ⟨s, q, o⟩ := by
    simp [substitute?, hs, hq, ho, Item.under?]
  have rows : τ ∈ (p.evaluate ctx).rows ↔ τ = NameMap.empty ∧ ⟨s, q, o⟩ ∈ ctx.graph.toList := by
    rw [evaluate_ground hs hq ho, ← Graph.contains_iff]
    split
    next hc => simp [Solutions.rows, hc]
    next hc => simp [Solutions.rows, hc]
  rw [rows]
  constructor
  · rintro ⟨rfl, hg⟩
    refine ⟨fun x => ?_, ⟨s, q, o⟩, hg, substituted _⟩
    simp [h, NameMap.contains]
  · rintro ⟨hn, t, hg, ht⟩
    obtain rfl := Option.some.inj ((substituted τ).symm.trans ht)
    refine ⟨NameMap.eq_empty_of_contains fun x => ?_, hg⟩
    simpa [h] using hn x

theorem mem_evaluate_iff_isMatch {p : Pattern} {ctx : Context} {τ : Solution} :
    τ ∈ (p.evaluate ctx).rows ↔ p.IsMatch ctx.graph τ ∧
      (p.suppliedNames ctx.input = [] ∨ ∃ μ ∈ ctx.input.rows,
        ∀ x ∈ p.suppliedNames ctx.input, μ.get? x = τ.get? x) := by
  by_cases h : p.names = []
  · have none : p.suppliedNames ctx.input = [] := by simp [suppliedNames, h]
    rw [mem_evaluate_ground h]
    exact ⟨fun hm => ⟨hm, .inl none⟩, And.left⟩
  · rw [mem_evaluate_iff h]
    constructor
    · rintro ⟨t, hg, hf, rfl, hin⟩
      exact ⟨⟨fun x => contains_solution_iff, t, hg, hf⟩, hin⟩
    · rintro ⟨⟨hn, t, hg, hs⟩, hin⟩
      obtain rfl := eq_solution_of_substitute? hs hn
      exact ⟨t, hg, hs, rfl, hin⟩

end Pattern
end TripleStore
