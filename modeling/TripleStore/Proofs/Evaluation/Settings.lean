import TripleStore.Proofs.Evaluation.Matches
import TripleStore.Proofs.Graph.History

/-! # Settings of an evaluation

The candidates that a pattern accepts are selected by the pattern, the incoming solutions and the list of
triples alone: for each distinct row of supplied nodes the fitting triples with these nodes, in the order
of the list. The indexes of the graph, the index of the pattern and the strictness of the check have no
part in the selection, so they do not show in the result, not even in its order. -/
namespace TripleStore.Pattern
open GraphStep

instance (p : Pattern) (t : Triple) : Decidable (p.Fits t) :=
  inferInstanceAs (Decidable (p.substitute? (p.solution t) = some t))

/-- The positions with a name that every incoming solution binds, and the names. -/
def supplied (p : Pattern) (m : Solutions) : List (Position × String) :=
  Position.all.filterMap fun pos =>
    ((p.item pos).binding?.filter m.bindsEverywhere).map fun x => (pos, x)

theorem mem_supplied_iff {p : Pattern} {m : Solutions} {pos : Position} {x : String} :
    (pos, x) ∈ p.supplied m ↔ (p.item pos).binding? = some x ∧ m.bindsEverywhere x = true := by
  simp only [supplied, List.mem_filterMap, Option.map_eq_some_iff, Option.filter_eq_some_iff,
    Prod.mk.injEq]
  constructor
  · rintro ⟨_, -, _, named, rfl, rfl⟩
    exact named
  · exact fun named => ⟨pos, mem_all pos, x, named, rfl, rfl⟩

theorem supplied_of_ground {p : Pattern} (h : p.names = []) (m : Solutions) : p.supplied m = [] := by
  refine List.eq_nil_iff_forall_not_mem.mpr fun e he => ?_
  have named : e.2 ∈ p.names := mem_names_iff.mpr ⟨e.1, (mem_supplied_iff.mp he).1⟩
  rw [h] at named
  exact List.not_mem_nil named

/-- The nodes of a triple in some named positions. -/
def rowOf (t : Triple) (ps : List (Position × String)) : List Node := ps.map fun e => t.nodeAt e.1

/-- The fitting triples of a list. If the incoming solutions supply nodes, these are taken for each row of
supplied nodes anew. -/
def fitting (p : Pattern) (m : Solutions) (ts : List Triple) : List Triple :=
  match p.supplied m with
  | [] => ts.filter fun t => p.Fits t
  | ps => (m.distinctRows (ps.map Prod.snd)).flatMap fun row =>
    ts.filter fun t => p.Fits t ∧ row = rowOf t ps

/-- What a pattern selects from a list of triples. -/
def select (p : Pattern) (m : Solutions) (ts : List Triple) : Solutions :=
  if p.names = [] then if (p.fitting m ts).isEmpty then .null else .identity
  else .table p.nameSet ((p.fitting m ts).map p.solution)

theorem select_congr {p q : Pattern} (hs : p.subject = q.subject) (hp : p.predicate = q.predicate)
    (ho : p.object = q.object) : p.select = q.select := by
  obtain ⟨s, r, o, b, h⟩ := p
  obtain ⟨s', r', o', b', h'⟩ := q
  obtain rfl : s = s' := hs
  obtain rfl : r = r' := hp
  obtain rfl : o = o' := ho
  rfl

/-- The positions of the chosen index have no names, so leaving them out changes nothing. -/
theorem probes_eq (p : Pattern) (ctx : Context) : p.probes ctx = p.supplied ctx.input := by
  unfold probes supplied
  refine List.filterMap_congr fun pos _ => ?_
  split
  next hm => simp [binding?_eq_none_of_mem_index hm]
  next => rfl

/-- Of the candidates that a probe finds those are accepted that fit, in the order of the graph. -/
theorem filter_probe {p : Pattern} {ctx : Context} {values : List (Position × Node)}
    (sub : ∀ t ∈ p.probe ctx.graph values, t ∈ p.candidates ctx) :
    (p.probe ctx.graph values).filter (p.accepts ctx) =
      ctx.graph.toList.filter fun t => p.Fits t ∧ t ∈ p.probe ctx.graph values := by
  have kept (f : Triple → Bool) (ts : List Triple) :
      ts.filter f = ts.filter fun t => t ∈ ts.filter f :=
    List.filter_congr fun t ht => by simp [ht]
  have listed : p.probe ctx.graph values =
      ctx.graph.toList.filter fun t => t ∈ p.probe ctx.graph values := by
    rw [probe, Graph.matching_eq]
    exact kept _ _
  rw [listed, List.filter_filter, ← listed]
  refine List.filter_congr fun t _ => ?_
  rw [Bool.eq_iff_iff, Bool.and_eq_true, decide_eq_true_eq, decide_eq_true_eq]
  exact and_congr_left fun found => accepts_iff_fits (sub t found)

theorem mem_probe_iff_of_fits {p : Pattern} {ctx : Context} {t : Triple} (row : List Node)
    (hl : (p.probes ctx).length = row.length) (ht : t ∈ ctx.graph.toList) (hf : p.Fits t) :
    t ∈ p.probe ctx.graph (((p.probes ctx).map Prod.fst).zip row) ↔ row = rowOf t (p.probes ctx) := by
  have nodes : ((p.probes ctx).map Prod.fst).map t.nodeAt = rowOf t (p.probes ctx) := List.map_map
  rw [mem_probe_zip_iff (nodup_positions_probes p ctx) (by rwa [List.length_map])
    fun _ => keyNode?_of_mem_probes, nodes]
  exact ⟨fun found => found.2.2, fun same => ⟨ht, hasKey_of_fits hf, same⟩⟩

/-- The accepted candidates are the fitting triples, in the same order. -/
theorem filter_candidates (p : Pattern) (ctx : Context) :
    (p.candidates ctx).filter (p.accepts ctx) = p.fitting ctx.input ctx.graph.toList := by
  unfold fitting
  rw [← probes_eq]
  split
  next none =>
    have scan : p.candidates ctx = p.probe ctx.graph [] := by rw [candidates, none]
    rw [scan, filter_probe fun t ht => by rwa [scan]]
    refine List.filter_congr fun t ht => ?_
    rw [Bool.eq_iff_iff, decide_eq_true_eq, decide_eq_true_eq]
    refine and_iff_left_of_imp fun hf => ?_
    have found := mem_probe_iff_of_fits [] (congrArg List.length none) ht hf
    rw [none] at found
    exact found.mpr rfl
  next ps some =>
    have rows : p.candidates ctx = (ctx.input.distinctRows ((p.probes ctx).map Prod.snd)).flatMap
        fun row => p.probe ctx.graph (((p.probes ctx).map Prod.fst).zip row) := by
      unfold candidates
      split
      next none => exact absurd none some
      next => rfl
    rw [rows, List.filter_flatMap]
    refine List.flatMap_congr fun row hrow => ?_
    rw [filter_probe fun t ht => by rw [rows]; exact List.mem_flatMap.mpr ⟨row, hrow, ht⟩]
    refine List.filter_congr fun t ht => ?_
    rw [Bool.eq_iff_iff, decide_eq_true_eq, decide_eq_true_eq]
    obtain ⟨μ, -, hμ⟩ := mem_distinctRows_iff.mp hrow
    have hl : (p.probes ctx).length = row.length := by simpa using congrArg List.length hμ
    exact and_congr_right fun hf => mem_probe_iff_of_fits row hl ht hf

/-- Evaluation is a selection from the list of triples: neither indexes nor options matter. -/
theorem evaluate_eq_select (p : Pattern) (ctx : Context) :
    p.evaluate ctx = p.select ctx.input ctx.graph.toList := by
  unfold select
  split
  next ground =>
    obtain ⟨s, q, o, hs, hq, ho⟩ := exists_fixed_of_names_eq_nil ground
    have unsupplied : p.supplied ctx.input = [] := supplied_of_ground ground ctx.input
    have member (t : Triple) : t ∈ p.fitting ctx.input ctx.graph.toList ↔
        t ∈ ctx.graph.toList ∧ t = ⟨s, q, o⟩ := by
      rw [fitting, unsupplied, List.mem_filter, decide_eq_true_eq, Fits, substitute?]
      simp [hs, hq, ho, Item.under?, eq_comm]
    have empty : (p.fitting ctx.input ctx.graph.toList).isEmpty = !ctx.graph.contains ⟨s, q, o⟩ := by
      rw [Bool.eq_iff_iff, List.isEmpty_iff, List.eq_nil_iff_forall_not_mem, Bool.not_eq_true',
        ← Bool.not_eq_true, Graph.contains_iff]
      simp only [member]
      exact ⟨fun none ht => none _ ⟨ht, rfl⟩, fun absent t ht => absent (ht.2 ▸ ht.1)⟩
    rw [evaluate_ground hs hq ho, empty]
    cases ctx.graph.contains ⟨s, q, o⟩ <;> rfl
  next names => rw [evaluate_eq names, filter_candidates]

/-- Patterns of the same items have the same result, with the same kind, columns and order of rows, in all
graphs of one history, whether or not these keep pair indexes, whichever index is chosen and however
strictly candidates are checked: it is selected from the list of the history. -/
theorem evaluate_settings (s q o : Item) (input : Solutions) (steps : List GraphStep)
    (pairs pairs' : Bool) (built built' options options' : EvaluationOptions) :
    let result (pairs : Bool) (built options : EvaluationOptions) :=
      (build built s q o).map fun p =>
        p.evaluate { graph := (history pairs steps).2.current, input, options }
    result pairs built options = result pairs' built' options' ∧
      result pairs built options =
        (build built s q o).map fun p => p.select input (listHistory steps).2.current := by
  simp only [evaluate_eq_select, (history_eq _ steps).2]
  refine ⟨?_, trivial⟩
  cases q with
  | placeholder n => rfl
  | fixed n => exact congrArg Except.ok (congrFun (congrFun (select_congr rfl rfl rfl) input) _)
  | var n => exact congrArg Except.ok (congrFun (congrFun (select_congr rfl rfl rfl) input) _)

end TripleStore.Pattern
