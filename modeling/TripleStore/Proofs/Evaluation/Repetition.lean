import TripleStore.Proofs.Evaluation.Settings

/-! # Repeated evaluation

A pattern that is evaluated on its own result returns this result. The rows of the result bind all names
of the pattern, so the graph is probed for each row, and a row holds all that the pattern leaves open of
its triple: each probe finds the triple of its row again and nothing else. -/
namespace TripleStore.Pattern

variable {p : Pattern} {t u : Triple}

/-- Solutions of a pattern supply all of its names, also if there are none of them. -/
theorem mem_supplied_solutions {ts : List Triple} {pos : Position} {x : String} :
    (pos, x) ∈ p.supplied (.table p.nameSet (ts.map p.solution)) ↔ (p.item pos).binding? = some x := by
  rw [mem_supplied_iff]
  refine and_iff_left_of_imp fun hx => ?_
  have named : x ∈ p.names := mem_names_iff.mpr ⟨pos, hx⟩
  refine Solutions.bindsEverywhere_iff.mpr ⟨named, fun row hrow => ?_⟩
  obtain ⟨t, -, rfl⟩ := List.mem_map.mp hrow
  exact contains_solution_iff.mpr named

theorem rowValues_solution {ps : List (Position × String)} (h : p.Fits t)
    (hp : ∀ e ∈ ps, (p.item e.1).binding? = some e.2) :
    Solutions.rowValues (ps.map Prod.snd) (p.solution t) = some (rowOf t ps) := by
  rw [rowValues_eq_some_iff, rowOf, List.map_map, List.map_map]
  exact List.map_congr_left fun e he => get?_solution_of_fits h (hp e he)

/-- A fitting triple is determined by its nodes in the positions of the names. -/
theorem Fits.eq_of_rowOf_eq {ps : List (Position × String)} (ht : p.Fits t) (hu : p.Fits u)
    (hp : ∀ pos x, (p.item pos).binding? = some x → (pos, x) ∈ ps) (h : rowOf t ps = rowOf u ps) :
    t = u := by
  refine ht.eq_of_solution_eq hu (NameMap.ext fun x => ?_)
  rw [get?_solution, get?_solution]
  cases hf : p.firstPosition? x with
  | none => rfl
  | some pos =>
    have listed : (pos, x) ∈ ps := hp pos x (binding?_of_firstPosition? hf)
    have same : t.nodeAt pos = u.nodeAt pos := List.map_inj_left.mp h (pos, x) listed
    rw [Option.map_some, Option.map_some, same]

theorem fitting_of_supplied {m : Solutions} (h : p.supplied m ≠ []) (ts : List Triple) :
    p.fitting m ts = (m.distinctRows ((p.supplied m).map Prod.snd)).flatMap fun row =>
      ts.filter fun t => p.Fits t ∧ row = rowOf t (p.supplied m) := by
  unfold fitting
  split
  next none => exact absurd none h
  next => rfl

theorem distinctRows_solutions {ps : List (Position × String)} {columns : NameSet} {found : List Triple}
    (distinct : found.Nodup) (fits : ∀ t ∈ found, p.Fits t)
    (hp : ∀ pos x, (pos, x) ∈ ps ↔ (p.item pos).binding? = some x) :
    (Solutions.table columns (found.map p.solution)).distinctRows (ps.map Prod.snd) =
      found.map fun t => rowOf t ps := by
  have rows : (found.map p.solution).filterMap (Solutions.rowValues (ps.map Prod.snd)) =
      found.map fun t => rowOf t ps := by
    have row : ∀ t ∈ found, Solutions.rowValues (ps.map Prod.snd) (p.solution t) = some (rowOf t ps) :=
      fun t ht => rowValues_solution (fits t ht) fun e he => (hp e.1 e.2).mp he
    calc
      _ = found.filterMap fun t => Solutions.rowValues (ps.map Prod.snd) (p.solution t) :=
        List.filterMap_map
      _ = found.filterMap (some ∘ fun t => rowOf t ps) := List.filterMap_congr row
      _ = found.map fun t => rowOf t ps := by rw [List.filterMap_eq_map]
  have once : (found.map fun t => rowOf t ps).Nodup := by
    refine List.Nodup.map_on (fun t ht u hu same => ?_) distinct
    exact (fits t ht).eq_of_rowOf_eq (fits u hu) (fun pos x => (hp pos x).mpr) same
  rw [Solutions.distinctRows, Solutions.rows, rows]
  exact FirstOccurrences.eraseDups_of_nodup once

/-- Each row of some solutions selects its own triple again. -/
theorem fitting_solutions {ts found : List Triple} (h : p.names ≠ []) (nodup : ts.Nodup)
    (distinct : found.Nodup) (fits : ∀ t ∈ found, t ∈ ts ∧ p.Fits t) :
    p.fitting (.table p.nameSet (found.map p.solution)) ts = found := by
  have supplied (pos : Position) (x : String) :
      (pos, x) ∈ p.supplied (.table p.nameSet (found.map p.solution)) ↔
        (p.item pos).binding? = some x := mem_supplied_solutions
  have some : p.supplied (.table p.nameSet (found.map p.solution)) ≠ [] := by
    obtain ⟨x, hx⟩ := List.exists_mem_of_ne_nil _ h
    obtain ⟨pos, hb⟩ := mem_names_iff.mp hx
    exact List.ne_nil_of_mem ((supplied pos x).mpr hb)
  rw [fitting_of_supplied some, distinctRows_solutions distinct (fun t ht => (fits t ht).2) supplied,
    List.flatMap_map]
  have own : ∀ t ∈ found, (ts.filter fun u => p.Fits u ∧
      rowOf t (p.supplied (.table p.nameSet (found.map p.solution))) =
        rowOf u (p.supplied (.table p.nameSet (found.map p.solution)))) = [t] := by
    intro t ht
    obtain ⟨listed, hf⟩ := fits t ht
    refine (filter_eq_singleton_iff nodup).mpr fun u => ?_
    rw [decide_eq_true_eq]
    constructor
    · rintro ⟨-, hu, same⟩
      exact (hf.eq_of_rowOf_eq hu (fun pos x => (supplied pos x).mpr) same).symm
    · rintro rfl
      exact ⟨listed, hf, rfl⟩
  rw [List.flatMap_congr own]
  exact List.flatMap_singleton' found

/-- Evaluating a pattern on its own result returns just this result: the same kind, the same columns and
the same rows in the same order, whatever options are set. -/
theorem evaluate_idempotent (p : Pattern) (ctx : Context) (again : EvaluationOptions) :
    p.evaluate { ctx with input := p.evaluate ctx, options := again } = p.evaluate ctx := by
  rw [evaluate_eq_select, evaluate_eq_select]
  unfold select
  by_cases ground : p.names = []
  · have same (m : Solutions) : p.fitting m ctx.graph.toList = ctx.graph.toList.filter fun t => p.Fits t := by
      rw [fitting, supplied_of_ground ground]
    rw [if_pos ground, if_pos ground, same, same]
  · rw [if_neg ground, if_neg ground]
    have found : p.fitting ctx.input ctx.graph.toList = (p.candidates ctx).filter (p.accepts ctx) :=
      (filter_candidates p ctx).symm
    have distinct : (p.fitting ctx.input ctx.graph.toList).Nodup := by
      rw [found]
      exact nodup_accepted p ctx
    have fits : ∀ t ∈ p.fitting ctx.input ctx.graph.toList, t ∈ ctx.graph.toList ∧ p.Fits t := by
      intro t ht
      rw [found] at ht
      obtain ⟨listed, hf, -⟩ := mem_accepted_iff.mp ht
      exact ⟨listed, hf⟩
    rw [fitting_solutions ground ctx.graph.nodup distinct fits]

end TripleStore.Pattern
