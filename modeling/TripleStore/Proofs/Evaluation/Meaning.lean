import TripleStore.Proofs.Evaluation.Candidates

/-! # What evaluation means

The solutions of a pattern are the assignments of its names under which it is a triple of the graph and
which agree with some incoming solution on the supplied names. Neither the chosen index nor the way of
probing shows in them. -/
namespace TripleStore

namespace Solutions

/-- A name is supplied if it is declared and every solution binds it. -/
structure Supplies (m : Solutions) (x : String) : Prop where
  declared : x ∈ m.columns
  bound : ∀ row ∈ m.rows, row.contains x = true

theorem declares_iff {m : Solutions} {x : String} : m.declares x = true ↔ x ∈ m.columns := by
  cases m with
  | null => simp [declares, columns]
  | identity => simp [declares, columns]
  | table cs rs => exact NameMap.mem_names.symm

theorem bindsEverywhere_iff {m : Solutions} {x : String} :
    m.bindsEverywhere x = true ↔ m.Supplies x := by
  rw [bindsEverywhere, Bool.and_eq_true, declares_iff, List.all_eq_true]
  exact ⟨fun ⟨declared, bound⟩ => ⟨declared, bound⟩, fun h => ⟨h.declared, h.bound⟩⟩

theorem declare_eq_self {columns : NameSet} {row : Solution}
    (h : ∀ x, row.contains x = true → columns.contains x = true) : declare columns row = columns := by
  have bound : ∀ x ∈ row.names, columns.contains x = true := fun x hx => h x (NameMap.mem_names.mp hx)
  unfold declare
  generalize row.names = ks at bound
  induction ks with
  | nil => rfl
  | cons k ks ih =>
    have hk : columns.add k = columns := by
      refine NameMap.ext fun x => ?_
      rw [NameSet.add, NameMap.get?_insert]
      split
      next hx =>
        obtain ⟨u, hu⟩ := Option.isSome_iff_exists.mp (bound k List.mem_cons_self)
        rw [hx, hu]
      next => rfl
    rw [List.foldl_cons, hk]
    exact ih fun x hx => bound x (List.mem_cons_of_mem _ hx)

theorem foldl_push {columns : NameSet} (added : List Solution)
    (h : ∀ row ∈ added, ∀ x, row.contains x = true → columns.contains x = true) (rows : List Solution) :
    added.foldl (fun (m : Solutions) row => m.push row) (table columns rows) =
      table columns (rows ++ added) := by
  induction added generalizing rows with
  | nil => simp
  | cons row added ih =>
    rw [List.foldl_cons, push, declare_eq_self (h row List.mem_cons_self),
      ih (fun r hr => h r (List.mem_cons_of_mem _ hr))]
    simp

end Solutions

namespace Pattern

theorem ofNames_names (s : NameSet) : NameSet.ofNames s.names = s := by
  refine NameMap.ext fun x => ?_
  have h : (NameSet.ofNames s.names).contains x = s.contains x := by
    rw [Bool.eq_iff_iff, NameSet.contains_ofNames, NameMap.mem_names]
  unfold NameMap.contains at h
  cases hn : (NameSet.ofNames s.names).get? x <;> cases hs : s.get? x <;> simp_all

/-- A pattern with names has a table over its names as its result. -/
theorem evaluate_eq {p : Pattern} (h : p.names ≠ []) (ctx : Context) :
    p.evaluate ctx = .table p.nameSet (((p.candidates ctx).filter (p.accepts ctx)).map p.solution) := by
  have names : p.evaluate ctx =
      (((p.candidates ctx).filter (p.accepts ctx)).map p.solution).foldl (fun m row => m.push row)
        (.withColumns p.names) := by
    unfold evaluate
    split
    next s q o hs hq ho =>
      have : p.names = [] := by
        rw [List.eq_nil_iff_forall_not_mem]
        intro x hx
        obtain ⟨pos, hb⟩ := mem_names_iff.mp hx
        cases pos <;> simp [item, hs, hq, ho, Item.binding?] at hb
      exact absurd this h
    next => rfl
  rw [names, Solutions.withColumns, Pattern.names, ofNames_names, Solutions.foldl_push]
  · rfl
  · intro row hrow x hx
    obtain ⟨t, _, rfl⟩ := List.mem_map.mp hrow
    exact NameMap.mem_names.mp (contains_solution_iff.mp hx)

theorem rows_evaluate {p : Pattern} (h : p.names ≠ []) (ctx : Context) :
    (p.evaluate ctx).rows = ((p.candidates ctx).filter (p.accepts ctx)).map p.solution := by
  rw [evaluate_eq h, Solutions.rows]

theorem fits_iff {p : Pattern} {t : Triple} :
    p.Fits t ↔ ∀ pos, (p.item pos).under? (p.solution t) = some (t.nodeAt pos) :=
  substitute?_eq_some_iff

/-- A fitting triple has the nodes that its solution binds in the positions of the names. -/
theorem get?_solution_of_fits {p : Pattern} {t : Triple} (h : p.Fits t) {pos : Position} {x : String}
    (hx : (p.item pos).binding? = some x) : (p.solution t).get? x = some (t.nodeAt pos) := by
  rw [← under?_of_binding? hx]
  exact fits_iff.mp h pos

/-- Fitting triples with the same solution are the same. -/
theorem Fits.eq_of_solution_eq {p : Pattern} {t u : Triple} (ht : p.Fits t) (hu : p.Fits u)
    (h : p.solution t = p.solution u) : t = u := by
  unfold Fits at ht hu
  rw [h] at ht
  exact Option.some.inj (ht.symm.trans hu)

theorem under?_solution_iff {p : Pattern} {t : Triple} {pos : Position} :
    (p.item pos).under? (p.solution t) = some (t.nodeAt pos) ↔
      match p.item pos with
      | .fixed n => n = t.nodeAt pos
      | .var x | .placeholder x => p.isRepeated pos = true →
        (p.firstPosition? x).any (fun first => t.nodeAt first = t.nodeAt pos) = true := by
  have named {x : String} (hb : (p.item pos).binding? = some x) :
      (p.solution t).get? x = some (t.nodeAt pos) ↔ (p.isRepeated pos = true →
        (p.firstPosition? x).any (fun first => t.nodeAt first = t.nodeAt pos) = true) := by
    obtain ⟨first, hf⟩ := exists_firstPosition? hb
    rw [get?_solution, hf]
    simp only [isRepeated, hb, hf, Option.map_some, Option.some.injEq, Option.any_some,
      decide_eq_true_eq]
    refine ⟨fun h _ => h, fun h => ?_⟩
    by_cases hp : first = pos
    · rw [hp]
    · exact h (by simpa using hp)
  cases hi : p.item pos with
  | fixed n => simp [Item.under?]
  | var x => simpa only [Item.under?] using named (x := x) (by rw [hi, Item.binding?])
  | placeholder x => simpa only [Item.under?] using named (x := x) (by rw [hi, Item.binding?])

/-- Every name that the incoming solutions supply is allowed for a candidate, whose nodes stem from one
of them. -/
theorem allows_of_mem_candidates {p : Pattern} {ctx : Context} {t : Triple} (ht : t ∈ p.candidates ctx)
    {pos : Position} {x : String} (hb : (p.item pos).binding? = some x) :
    allows ctx x (t.nodeAt pos) = true := by
  unfold allows
  by_cases hx : ctx.input.bindsEverywhere x = true
  · have hs : p.suppliedName? ctx pos = some x := suppliedName?_eq_some_iff.mpr ⟨hb, hx⟩
    rcases (mem_candidates_iff.mp ht).2.2 with hnil | ⟨row, hrow, ha⟩
    · simp [probes_eq_nil_iff.mp hnil pos] at hs
    · have : t.nodeAt pos ∈ ctx.input.distinctValues x :=
        mem_distinctValues_iff.mpr ⟨row, hrow, ha pos x hs⟩
      simp [this]
  · simp [hx]

theorem acceptsAt_iff {p : Pattern} {ctx : Context} {t : Triple} {pos : Position} :
    p.acceptsAt ctx t pos = true ↔ (p.item pos).under? (p.solution t) = some (t.nodeAt pos) ∧
      ∀ x, (p.item pos).binding? = some x → p.isRepeated pos = false → allows ctx x (t.nodeAt pos) = true := by
  rw [under?_solution_iff]
  unfold acceptsAt
  cases hi : p.item pos with
  | fixed n => simp [Item.binding?]
  | var x => by_cases hr : p.isRepeated pos = true <;> simp [Item.binding?, hr]
  | placeholder x => by_cases hr : p.isRepeated pos = true <;> simp [Item.binding?, hr]

/-- A triple is accepted when it fits and its nodes are allowed. -/
theorem accepts_iff {p : Pattern} {ctx : Context} {t : Triple} : p.accepts ctx t = true ↔
    p.Fits t ∧ ∀ pos x, (p.item pos).binding? = some x → allows ctx x (t.nodeAt pos) = true := by
  have all : p.accepts ctx t = true ↔ ∀ pos, p.acceptsAt ctx t pos = true := by
    rw [accepts, List.all_eq_true]
    exact ⟨fun h pos => h pos (mem_all pos), fun h pos _ => h pos⟩
  rw [all]
  simp only [acceptsAt_iff]
  constructor
  · intro h
    have fits : p.Fits t := fits_iff.mpr fun pos => (h pos).1
    refine ⟨fits, fun pos x hx => ?_⟩
    -- Only the first position of a name is checked; the others have the same node.
    have value := get?_solution_of_fits fits hx
    rw [get?_solution, Option.map_eq_some_iff] at value
    obtain ⟨first, hf, same⟩ := value
    have hb := binding?_of_firstPosition? hf
    have single : p.isRepeated first = false := by simp [isRepeated, hb, hf]
    rw [← same]
    exact (h first).2 x hb single
  · rintro ⟨fits, allowed⟩ pos
    exact ⟨fits_iff.mp fits pos, fun x hx _ => allowed pos x hx⟩

theorem accepts_iff_fits {p : Pattern} {ctx : Context} {t : Triple} (ht : t ∈ p.candidates ctx) :
    p.accepts ctx t = true ↔ p.Fits t :=
  accepts_iff.trans (and_iff_left fun _ _ hb => allows_of_mem_candidates ht hb)

theorem hasKey_of_fits {p : Pattern} {t : Triple} (h : p.Fits t) : p.HasKey t := by
  intro pos n hk
  have := fits_iff.mp h pos
  unfold keyNode? at hk
  split at hk
  · cases hi : p.item pos with
    | fixed m =>
      simp only [hi, Item.node?, Option.some.injEq] at hk
      simp only [hi, Item.under?, Option.some.injEq] at this
      exact this.symm.trans hk
    | var x => simp [hi, Item.node?] at hk
    | placeholder x => simp [hi, Item.node?] at hk
  · simp at hk

/-- The names of a pattern that the incoming solutions supply. -/
def suppliedNames (p : Pattern) (m : Solutions) : List String := p.names.filter m.bindsEverywhere

theorem mem_suppliedNames {p : Pattern} {m : Solutions} {x : String} :
    x ∈ p.suppliedNames m ↔ x ∈ p.names ∧ m.Supplies x := by
  rw [suppliedNames, List.mem_filter, Solutions.bindsEverywhere_iff]

theorem mem_suppliedNames_iff {p : Pattern} {ctx : Context} {x : String} :
    x ∈ p.suppliedNames ctx.input ↔ ∃ pos, p.suppliedName? ctx pos = some x := by
  simp only [suppliedNames, List.mem_filter, mem_names_iff, suppliedName?_eq_some_iff]
  exact exists_and_right.symm

/-- Agreement on the supplied names, if there are any. -/
theorem agrees_iff {p : Pattern} {m : Solutions} {σ : Solution} :
    (p.suppliedNames m = [] ∨ ∃ row ∈ m.rows, ∀ x ∈ p.suppliedNames m, row.get? x = σ.get? x) ↔
      ((∃ x ∈ p.names, m.Supplies x) →
        ∃ row ∈ m.rows, ∀ x ∈ p.names, m.Supplies x → row.get? x = σ.get? x) := by
  have none : p.suppliedNames m = [] ↔ ¬ ∃ x ∈ p.names, m.Supplies x := by
    simp only [List.eq_nil_iff_forall_not_mem, mem_suppliedNames, not_exists]
  simp only [none, mem_suppliedNames, and_imp]
  exact imp_iff_not_or.symm

theorem suppliedNames_eq_nil_iff {p : Pattern} {ctx : Context} :
    p.suppliedNames ctx.input = [] ↔ p.probes ctx = [] := by
  rw [probes_eq_nil_iff, List.eq_nil_iff_forall_not_mem]
  simp only [mem_suppliedNames_iff, not_exists, Option.eq_none_iff_forall_ne_some]
  exact forall_comm

theorem agreesWith_iff {p : Pattern} {ctx : Context} {row : Solution} {t : Triple} (h : p.Fits t) :
    p.AgreesWith ctx row t ↔
      ∀ x ∈ p.suppliedNames ctx.input, row.get? x = (p.solution t).get? x := by
  have value {pos : Position} {x : String} (hs : p.suppliedName? ctx pos = some x) :
      (p.solution t).get? x = some (t.nodeAt pos) :=
    get?_solution_of_fits h (suppliedName?_eq_some_iff.mp hs).1
  constructor
  · intro ha x hx
    obtain ⟨pos, hs⟩ := mem_suppliedNames_iff.mp hx
    rw [ha pos x hs, value hs]
  · intro ha pos x hs
    rw [ha x (mem_suppliedNames_iff.mpr ⟨pos, hs⟩), value hs]

/-- The accepted candidates are the fitting triples that agree with some incoming solution. -/
theorem mem_accepted_iff {p : Pattern} {ctx : Context} {t : Triple} :
    t ∈ (p.candidates ctx).filter (p.accepts ctx) ↔ t ∈ ctx.graph.toList ∧ p.Fits t ∧
      (p.suppliedNames ctx.input = [] ∨ ∃ row ∈ ctx.input.rows,
        ∀ x ∈ p.suppliedNames ctx.input, row.get? x = (p.solution t).get? x) := by
  rw [List.mem_filter, suppliedNames_eq_nil_iff]
  constructor
  · rintro ⟨hc, ha⟩
    have hf := (accepts_iff_fits hc).mp ha
    obtain ⟨hg, -, hin⟩ := mem_candidates_iff.mp hc
    exact ⟨hg, hf, by simpa only [agreesWith_iff hf] using hin⟩
  · rintro ⟨hg, hf, hin⟩
    have hc : t ∈ p.candidates ctx :=
      mem_candidates_iff.mpr ⟨hg, hasKey_of_fits hf, by simpa only [agreesWith_iff hf] using hin⟩
    exact ⟨hc, (accepts_iff_fits hc).mpr hf⟩

theorem mem_evaluate_iff {p : Pattern} (h : p.names ≠ []) {ctx : Context} {σ : Solution} :
    σ ∈ (p.evaluate ctx).rows ↔ ∃ t ∈ ctx.graph.toList, p.Fits t ∧ p.solution t = σ ∧
      (p.suppliedNames ctx.input = [] ∨ ∃ row ∈ ctx.input.rows,
        ∀ x ∈ p.suppliedNames ctx.input, row.get? x = σ.get? x) := by
  rw [rows_evaluate h, List.mem_map]
  simp only [mem_accepted_iff]
  constructor
  · rintro ⟨t, ⟨hg, hf, hin⟩, rfl⟩
    exact ⟨t, hg, hf, rfl, hin⟩
  · rintro ⟨t, hg, hf, rfl, hin⟩
    exact ⟨t, ⟨hg, hf, hin⟩, rfl⟩

theorem nodup_accepted (p : Pattern) (ctx : Context) :
    ((p.candidates ctx).filter (p.accepts ctx)).Nodup :=
  (nodup_candidates p ctx).filter _

theorem nodup_evaluate {p : Pattern} (h : p.names ≠ []) (ctx : Context) :
    (p.evaluate ctx).rows.Nodup := by
  rw [rows_evaluate h]
  refine List.Nodup.map_on ?_ (nodup_accepted p ctx)
  intro t ht u hu e
  exact (mem_accepted_iff.mp ht).2.1.eq_of_solution_eq (mem_accepted_iff.mp hu).2.1 e

/-- The result of a pattern with names declares these names. Its solutions are, each of them once, the
assignments of just these names that make the pattern a triple of the graph and that agree with some
incoming solution on the names that the incoming solutions declare and all of them bind, if there are such
names. -/
theorem evaluate_meaning {p : Pattern} (h : p.names ≠ []) (ctx : Context) :
    (p.evaluate ctx).columns = p.names ∧ (p.evaluate ctx).rows.Nodup ∧
      ∀ σ, σ ∈ (p.evaluate ctx).rows ↔
        (∀ x, σ.contains x = true ↔ x ∈ p.names) ∧
        (∃ t ∈ ctx.graph.toList, p.substitute? σ = some t) ∧
        ((∃ x ∈ p.names, ctx.input.Supplies x) →
          ∃ row ∈ ctx.input.rows, ∀ x ∈ p.names, ctx.input.Supplies x → row.get? x = σ.get? x) := by
  refine ⟨by rw [evaluate_eq h]; rfl, nodup_evaluate h ctx, fun σ => ?_⟩
  rw [mem_evaluate_iff h, ← agrees_iff]
  constructor
  · rintro ⟨t, hg, hf, rfl, hin⟩
    exact ⟨fun x => contains_solution_iff, ⟨t, hg, hf⟩, hin⟩
  · rintro ⟨hd, ⟨t, hg, hs⟩, hin⟩
    obtain rfl := eq_solution_of_substitute? hs hd
    exact ⟨t, hg, hs, rfl, hin⟩

/-- A repeated name, supplied by one of two incoming solutions that bind it and another name. -/
theorem evaluate_meaning_repeated :
    let p : Pattern := ⟨.var "x", .fixed .rdfType, .var "x", false, rfl⟩
    let ctx : Context :=
      { graph := .ofList [⟨.blank "a", .rdfType, .blank "a"⟩, ⟨.blank "a", .rdfType, .blank "b"⟩]
        input := .ofRows [.ofList [("x", .blank "a"), ("y", .rdfNil)], .ofList [("x", .blank "c")]]
        options := { pairIndexes := false, rigorous := true } }
    p.names ≠ [] ∧ (p.evaluate ctx).columns = p.names ∧ (p.evaluate ctx).rows.Nodup ∧
      ∀ σ, σ ∈ (p.evaluate ctx).rows ↔
        (∀ x, σ.contains x = true ↔ x ∈ p.names) ∧
        (∃ t ∈ ctx.graph.toList, p.substitute? σ = some t) ∧
        ((∃ x ∈ p.names, ctx.input.Supplies x) →
          ∃ row ∈ ctx.input.rows, ∀ x ∈ p.names, ctx.input.Supplies x → row.get? x = σ.get? x) := by
  intro p ctx
  have h : p.names ≠ [] := List.ne_nil_of_mem (mem_names_iff.mpr ⟨.subject, rfl⟩)
  exact ⟨h, evaluate_meaning h ctx⟩

end Pattern
end TripleStore
