import TripleStore.Proofs.Evaluation.Matches

/-! # Patterns that fail

A pattern fails when it has no solutions. In a chain of patterns the result of each one is the input of
the next one. A failure is passed on through the names that a result declares, so it stops at a pattern
that shares no name with its predecessor; the main statement says exactly which chains fail as a whole
when no solution comes in. -/
namespace TripleStore.Pattern

/-- The results of a chain of patterns. -/
def results (g : Graph) (o : EvaluationOptions) : Solutions → List Pattern → List Solutions
  | _, [] => []
  | input, p :: ps =>
    let output := p.evaluate { graph := g, input, options := o }
    output :: results g o output ps

/-- Whether a pattern has no solutions when none come in, but some names are declared: it has a declared
name, or it does not match at all. -/
def FailsAfter (g : Graph) (declared : List String) (p : Pattern) : Prop :=
  (∃ x ∈ p.names, x ∈ declared) ∨ ∀ τ, ¬ p.IsMatch g τ

/-- Whether each pattern of a chain fails after its predecessor, and the first one after some declared
names. -/
def ChainFails (g : Graph) : List String → List Pattern → Prop
  | _, [] => True
  | declared, p :: ps => FailsAfter g declared p ∧ ChainFails g p.names ps

theorem suppliedNames_eq_nil_of_rows {p : Pattern} {m : Solutions} (h : m.rows = []) :
    p.suppliedNames m = [] ↔ ¬ ∃ x ∈ p.names, x ∈ m.columns := by
  have supplied (x : String) : m.Supplies x ↔ x ∈ m.columns :=
    ⟨Solutions.Supplies.declared, fun hx => ⟨hx, by simp [h]⟩⟩
  simp only [List.eq_nil_iff_forall_not_mem, mem_suppliedNames, supplied, not_exists]

theorem rows_evaluate_eq_nil_iff {p : Pattern} {ctx : Context} (h : ctx.input.rows = []) :
    (p.evaluate ctx).rows = [] ↔ FailsAfter ctx.graph ctx.input.columns p := by
  rw [List.eq_nil_iff_forall_not_mem]
  simp only [mem_evaluate_iff_isMatch, h, List.not_mem_nil, false_and, exists_false, or_false,
    suppliedNames_eq_nil_of_rows h]
  unfold FailsAfter
  by_cases shared : ∃ x ∈ p.names, x ∈ ctx.input.columns
  · exact ⟨fun _ => .inl shared, fun _ τ result => result.2 shared⟩
  · exact ⟨fun none => .inr fun τ hτ => none τ ⟨hτ, shared⟩,
      fun fails τ result => (fails.resolve_left shared) τ result.1⟩

/-- When no solution comes in, a chain of patterns has no solutions at all if and only if each of its
patterns shares a name with its predecessor, the first one with the declared names, or does not match. -/
theorem results_fail_iff (g : Graph) (o : EvaluationOptions) {input : Solutions} (h : input.rows = [])
    (ps : List Pattern) :
    (∀ output ∈ results g o input ps, output.rows = []) ↔ ChainFails g input.columns ps := by
  induction ps generalizing input with
  | nil => simp [results, ChainFails]
  | cons p ps ih =>
    let ctx : Context := { graph := g, input, options := o }
    have first : (p.evaluate ctx).rows = [] ↔ FailsAfter g input.columns p :=
      rows_evaluate_eq_nil_iff h
    have rest (none : (p.evaluate ctx).rows = []) :
        (∀ output ∈ results g o (p.evaluate ctx) ps, output.rows = []) ↔ ChainFails g p.names ps := by
      rw [ih none, columns_evaluate]
    simp only [results, List.forall_mem_cons, ChainFails]
    rw [← first]
    exact and_congr_right rest

/-- A pattern with two names fails after one of them has been declared without a solution, and so does
the next pattern, which shares the other name. -/
theorem results_fail_linked :
    let p := Node.iri "http://example.com/p"
    let g := Graph.ofList [⟨.blank "a", p, .blank "b"⟩]
    let ps : List Pattern :=
      [⟨.var "x", .fixed p, .var "y", true, rfl⟩, ⟨.var "z", .fixed p, .var "y", true, rfl⟩]
    let input := Solutions.withColumns ["x"]
    input.rows = [] ∧ ∀ output ∈ results g {} input ps, output.rows = [] := by
  intro p g ps input
  exact ⟨rfl, (results_fail_iff g {} rfl ps).mpr
    ⟨.inl ⟨"x", by decide, by decide⟩, .inl ⟨"y", by decide, by decide⟩, trivial⟩⟩

/-- A pattern can have solutions although none come in. -/
theorem evaluate_recovers :
    ¬ ∀ (p : Pattern) (ctx : Context), ctx.input.rows = [] → (p.evaluate ctx).rows = [] := by
  intro fails
  let a := Node.iri "http://example.com/a"
  let q : Pattern := ⟨.fixed a, .fixed a, .var "o", true, rfl⟩
  have none := fails q { graph := .ofList [⟨a, a, a⟩], input := .null } rfl
  exact absurd none (by decide)

end TripleStore.Pattern
