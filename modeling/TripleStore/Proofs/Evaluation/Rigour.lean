import TripleStore.Proofs.Evaluation.Matches

/-! # Rigorous evaluation

In rigorous evaluation a triple is accepted if each name is bound to a node that some incoming solution
binds to it, whereas a pattern is evaluated by rows: all names have to be bound as in one and the same
incoming solution. So the results are accepted triples, and for a single supplied name they are all of
the accepted triples. -/
namespace TripleStore.Pattern

variable {p : Pattern} {ctx : Context} {t : Triple}

theorem allows_rigorous_iff (rigorous : ctx.options.rigorous = true) {x : String} {n : Node} :
    allows ctx x n = true ↔
      (ctx.input.bindsEverywhere x = true → ∃ row ∈ ctx.input.rows, row.get? x = some n) := by
  rw [allows, rigorous, Bool.true_and, Bool.or_eq_true, List.contains_iff_mem, mem_distinctValues_iff,
    Bool.not_eq_true', ← Bool.not_eq_true]
  exact imp_iff_not_or.symm

/-- In rigorous evaluation a triple is accepted if it fits and if some incoming solutions, one for each
supplied name, bind these names as the triple does. -/
theorem accepts_rigorous_iff (rigorous : ctx.options.rigorous = true) : p.accepts ctx t = true ↔
    p.Fits t ∧ ∀ x ∈ p.suppliedNames ctx.input, ∃ row ∈ ctx.input.rows,
      row.get? x = (p.solution t).get? x := by
  rw [accepts_iff]
  refine and_congr_right fun fits => ⟨fun allowed x hx => ?_, fun bound pos x hx => ?_⟩
  · obtain ⟨pos, hs⟩ := mem_suppliedNames_iff.mp hx
    obtain ⟨hb, everywhere⟩ := suppliedName?_eq_some_iff.mp hs
    rw [get?_solution_of_fits fits hb]
    exact (allows_rigorous_iff rigorous).mp (allowed pos x hb) everywhere
  · refine (allows_rigorous_iff rigorous).mpr fun everywhere => ?_
    have supplied : x ∈ p.suppliedNames ctx.input :=
      mem_suppliedNames_iff.mpr ⟨pos, suppliedName?_eq_some_iff.mpr ⟨hx, everywhere⟩⟩
    rw [← get?_solution_of_fits fits hx]
    exact bound x supplied

/-- One name is supplied by one solution, so that a scan of the graph accepts what the probes find. -/
theorem accepted_perm_scan (rigorous : ctx.options.rigorous = true)
    (single : ∀ x ∈ p.suppliedNames ctx.input, ∀ y ∈ p.suppliedNames ctx.input, x = y) :
    ((p.candidates ctx).filter (p.accepts ctx)).Perm (ctx.graph.toList.filter (p.accepts ctx)) := by
  refine (List.perm_ext_iff_of_nodup (nodup_accepted p ctx) (ctx.graph.nodup.filter _)).mpr fun t => ?_
  rw [mem_accepted_iff, List.mem_filter, accepts_rigorous_iff rigorous]
  refine and_congr_right fun _ => and_congr_right fun _ => ⟨?_, fun bound => ?_⟩
  · rintro (none | ⟨row, hrow, agrees⟩) x hx
    · rw [none] at hx
      exact absurd hx List.not_mem_nil
    · exact ⟨row, hrow, agrees x hx⟩
  · by_cases none : p.suppliedNames ctx.input = []
    · exact .inl none
    · obtain ⟨x, hx⟩ := List.exists_mem_of_ne_nil _ none
      obtain ⟨row, hrow, agrees⟩ := bound x hx
      exact .inr ⟨row, hrow, fun y hy => single x hx y hy ▸ agrees⟩

/-- In rigorous evaluation the solutions of a pattern with names are solutions of accepted triples of the
graph, of each triple at most once. If at most one name of the pattern is declared and bound by all
incoming solutions, they are, up to order, the solutions of all accepted triples of the graph. -/
theorem evaluate_rigorous (h : p.names ≠ []) (rigorous : ctx.options.rigorous = true) :
    (∃ ts : List Triple, ts.Nodup ∧ (∀ t ∈ ts, t ∈ ctx.graph.toList ∧ p.accepts ctx t = true) ∧
        (p.evaluate ctx).rows = ts.map p.solution) ∧
      ((∀ x ∈ p.names, ∀ y ∈ p.names, ctx.input.bindsEverywhere x = true →
          ctx.input.bindsEverywhere y = true → x = y) →
        (p.evaluate ctx).rows.Perm ((ctx.graph.toList.filter (p.accepts ctx)).map p.solution)) := by
  rw [rows_evaluate h]
  refine ⟨⟨_, nodup_accepted p ctx, fun t ht => ?_, rfl⟩, fun single => ?_⟩
  · exact ⟨(mem_accepted_iff.mp ht).1, (List.mem_filter.mp ht).2⟩
  · refine (accepted_perm_scan rigorous fun x hx y hy => ?_).map p.solution
    obtain ⟨namedx, everywherex⟩ := List.mem_filter.mp hx
    obtain ⟨namedy, everywherey⟩ := List.mem_filter.mp hy
    exact single x namedx y namedy everywherex everywherey

/-- One name in two positions, which all incoming solutions bind, and one that only some of them bind. -/
theorem evaluate_rigorous_repeated :
    let p : Pattern := ⟨.var "x", .var "y", .var "x", true, rfl⟩
    let s := Node.iri "http://example.com/s"
    let ctx : Context :=
      { graph := .ofList [⟨s, s, s⟩, ⟨s, .rdfType, s⟩, ⟨s, s, .rdfNil⟩, ⟨.rdfNil, s, .rdfNil⟩]
        input := .ofRows [.ofList [("x", s), ("y", s)], .ofList [("x", s)], .ofList [("x", .rdfType)]]
        options := { rigorous := true } }
    p.names ≠ [] ∧ ctx.options.rigorous = true ∧
      (p.evaluate ctx).rows.Perm ((ctx.graph.toList.filter (p.accepts ctx)).map p.solution) := by
  intro p s ctx
  have names : p.names ≠ [] := List.ne_nil_of_mem (mem_names_iff.mpr ⟨.subject, rfl⟩)
  refine ⟨names, rfl, (evaluate_rigorous names rfl).2 ?_⟩
  decide

end TripleStore.Pattern
