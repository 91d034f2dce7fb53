import TripleStore.Proofs.Evaluation.Substitution
import TripleStore.Proofs.FirstOccurrences
import TripleStore.Proofs.Graph.Matching

/-! # Candidates

The candidates of a pattern are the triples of the graph with the nodes of the chosen index that agree
with some incoming solution on the supplied names, each of them once. -/
namespace TripleStore.Pattern
open FirstOccurrences

theorem isFixed_of_mem_index {p : Pattern} {pos : Position} (h : pos ∈ p.index.positions) :
    (p.item pos).isFixed = true := by
  unfold index at h
  cases hs : p.subject.isFixed <;> cases hp : p.predicate.isFixed <;>
    cases ho : p.object.isFixed <;> cases hi : p.pairIndexes <;> cases pos <;>
    simp_all [IndexChoice.choose, IndexChoice.positions, item, Position.all]

theorem binding?_eq_none_of_mem_index {p : Pattern} {pos : Position}
    (h : pos ∈ p.index.positions) : (p.item pos).binding? = none := by
  have := isFixed_of_mem_index h
  cases hi : p.item pos with
  | fixed n => rfl
  | var x => simp [hi, Item.isFixed] at this
  | placeholder x => simp [hi, Item.isFixed] at this

theorem suppliedName?_eq_some_iff {p : Pattern} {ctx : Context} {pos : Position} {x : String} :
    p.suppliedName? ctx pos = some x ↔
      (p.item pos).binding? = some x ∧ ctx.input.bindsEverywhere x = true := by
  rw [suppliedName?, Option.filter_eq_some_iff]

theorem mem_probes_iff {p : Pattern} {ctx : Context} {pos : Position} {x : String} :
    (pos, x) ∈ p.probes ctx ↔ p.suppliedName? ctx pos = some x := by
  simp only [probes, List.mem_filterMap]
  constructor
  · rintro ⟨pos', _, h⟩
    split at h
    · simp at h
    · obtain ⟨x', hx, e⟩ := Option.map_eq_some_iff.mp h
      obtain ⟨rfl, rfl⟩ := Prod.mk.inj e
      exact hx
  · intro h
    have hpos : pos ∉ p.index.positions := fun hm => by
      simp [suppliedName?, binding?_eq_none_of_mem_index hm] at h
    exact ⟨pos, mem_all pos, by simp [hpos, h]⟩

theorem nodup_positions_probes (p : Pattern) (ctx : Context) :
    ((p.probes ctx).map Prod.fst).Nodup := by
  have sub : ∀ ps : List Position, List.Sublist
      ((ps.filterMap fun pos => if pos ∈ p.index.positions then none
        else (p.suppliedName? ctx pos).map fun name => (pos, name)).map Prod.fst) ps := by
    intro ps
    induction ps with
    | nil => simp
    | cons pos ps ih =>
      rw [List.filterMap_cons]
      split
      · exact ih.cons pos
      next e he =>
        split at he
        · simp at he
        · obtain ⟨x, _, rfl⟩ := Option.map_eq_some_iff.mp he
          exact ih.cons_cons pos
  exact (sub Position.all).nodup (by decide)

/-- The key nodes of a pattern stand in a triple. -/
def HasKey (p : Pattern) (t : Triple) : Prop :=
  ∀ pos n, p.keyNode? pos = some n → t.nodeAt pos = n

theorem mem_matching_iff {g : Graph} (node : Position → Option Node) {t : Triple} :
    t ∈ g.matching (node .subject) (node .predicate) (node .object) ↔
      t ∈ g.toList ∧ ∀ pos n, node pos = some n → t.nodeAt pos = n := by
  rw [g.matching_eq, List.mem_filter, decide_eq_true_eq]
  refine and_congr_right fun _ => ⟨fun ⟨hs, hp, ho⟩ pos n h => ?_, fun h => ⟨?_, ?_, ?_⟩⟩
  · cases pos with
    | subject => exact hs n h
    | predicate => exact hp n h
    | object => exact ho n h
  · exact fun n hn => h .subject n hn
  · exact fun n hn => h .predicate n hn
  · exact fun n hn => h .object n hn

theorem lookup_zip_of_nodup {κ α : Type} [DecidableEq κ] {ks : List κ} {vs : List α}
    (hn : ks.Nodup) (hl : ks.length = vs.length) {k : κ} {v : α} :
    (ks.zip vs).lookup k = some v ↔ (k, v) ∈ ks.zip vs := by
  have hk : ((ks.zip vs).map Prod.fst).Nodup := by
    rw [List.map_fst_zip (Nat.le_of_eq hl)]
    exact hn
  exact ⟨Association.mem_of_lookup_eq_some, Association.lookup_eq_some_of_mem hk⟩

theorem forall_mem_zip_iff {κ α : Type} {f : κ → α} {ks : List κ} {vs : List α}
    (hl : ks.length = vs.length) : (∀ e ∈ ks.zip vs, f e.1 = e.2) ↔ vs = ks.map f := by
  induction ks generalizing vs with
  | nil => simpa using List.length_eq_zero_iff.mp hl.symm
  | cons k ks ih =>
    cases vs with
    | nil => simp at hl
    | cons v vs =>
      simp only [List.zip_cons_cons, List.mem_cons, forall_eq_or_imp, List.map_cons, List.cons.injEq,
        ih (Nat.succ.inj hl)]
      rw [eq_comm (a := f k)]

theorem mem_probe_zip_iff {p : Pattern} {g : Graph} {ps : List Position} {vs : List Node} {t : Triple}
    (hn : ps.Nodup) (hl : ps.length = vs.length) (hf : ∀ pos ∈ ps, p.keyNode? pos = none) :
    t ∈ p.probe g (ps.zip vs) ↔ t ∈ g.toList ∧ p.HasKey t ∧ vs = ps.map t.nodeAt := by
  rw [← forall_mem_zip_iff hl]
  refine (mem_matching_iff fun pos => ((ps.zip vs).lookup pos).or (p.keyNode? pos)).trans ?_
  refine and_congr_right fun _ => ⟨fun h => ⟨fun pos n hk => ?_, fun e he => ?_⟩, fun ⟨hk, hv⟩ pos n h => ?_⟩
  · refine h pos n ?_
    have hpos : pos ∉ ps := fun hm => by simp [hf pos hm] at hk
    have : (ps.zip vs).lookup pos = none := by
      rw [Association.lookup_eq_none, List.map_fst_zip (Nat.le_of_eq hl)]
      exact hpos
    simp [this, hk]
  · refine h e.1 e.2 ?_
    rw [(lookup_zip_of_nodup hn hl).mpr he, Option.some_or]
  · rcases Option.or_eq_some_iff.mp h with h | ⟨_, h⟩
    · exact hv (pos, n) ((lookup_zip_of_nodup hn hl).mp h)
    · exact hk pos n h

theorem rowValues_eq_some_iff {names : List String} {row : Solution} {vs : List Node} :
    Solutions.rowValues names row = some vs ↔ names.map row.get? = vs.map some := by
  unfold Solutions.rowValues
  induction names generalizing vs with
  | nil => cases vs <;> simp
  | cons x names ih =>
    rw [List.mapM_cons]
    cases hx : row.get? x with
    | none => cases vs <;> simp [hx]
    | some v =>
      cases vs with
      | nil => simp [Option.bind_eq_some_iff]
      | cons w vs => simp [Option.bind_eq_some_iff, hx, ih, and_comm]

theorem mem_distinctRows_iff {m : Solutions} {names : List String} {vs : List Node} :
    vs ∈ m.distinctRows names ↔ ∃ row ∈ m.rows, names.map row.get? = vs.map some := by
  simp only [Solutions.distinctRows, List.mem_eraseDups, List.mem_filterMap, rowValues_eq_some_iff]

theorem mem_distinctValues_iff {m : Solutions} {x : String} {n : Node} :
    n ∈ m.distinctValues x ↔ ∃ row ∈ m.rows, row.get? x = some n := by
  rw [Solutions.distinctValues, List.mem_eraseDups, List.mem_filterMap]

/-- A solution binds the supplied names to the nodes of a triple. -/
def AgreesWith (p : Pattern) (ctx : Context) (row : Solution) (t : Triple) : Prop :=
  ∀ pos x, p.suppliedName? ctx pos = some x → row.get? x = some (t.nodeAt pos)

theorem keyNode?_of_mem_probes {p : Pattern} {ctx : Context} {pos : Position}
    (h : pos ∈ (p.probes ctx).map Prod.fst) : p.keyNode? pos = none := by
  obtain ⟨⟨pos, x⟩, hm, rfl⟩ := List.mem_map.mp h
  have hb := (suppliedName?_eq_some_iff.mp (mem_probes_iff.mp hm)).1
  cases hi : p.item pos with
  | fixed n => simp [hi, Item.binding?] at hb
  | var y => simp [keyNode?, hi, Item.node?]
  | placeholder y => simp [keyNode?, hi, Item.node?]

theorem map_get?_probes_iff {p : Pattern} {ctx : Context} {row : Solution} {t : Triple} :
    ((p.probes ctx).map Prod.snd).map row.get? =
        (((p.probes ctx).map Prod.fst).map t.nodeAt).map some ↔ p.AgreesWith ctx row t := by
  simp only [List.map_map, List.map_inj_left, Prod.forall, mem_probes_iff]
  exact Iff.rfl

theorem probes_eq_nil_iff {p : Pattern} {ctx : Context} :
    p.probes ctx = [] ↔ ∀ pos, p.suppliedName? ctx pos = none := by
  rw [List.eq_nil_iff_forall_not_mem]
  constructor
  · intro h pos
    cases hx : p.suppliedName? ctx pos with
    | none => rfl
    | some x => exact absurd (mem_probes_iff.mpr hx) (h (pos, x))
  · intro h e he
    have := mem_probes_iff.mp he
    simp [h] at this

theorem mem_candidates_iff {p : Pattern} {ctx : Context} {t : Triple} :
    t ∈ p.candidates ctx ↔ t ∈ ctx.graph.toList ∧ p.HasKey t ∧
      (p.probes ctx = [] ∨ ∃ row ∈ ctx.input.rows, p.AgreesWith ctx row t) := by
  unfold candidates
  split
  next h =>
    have found : t ∈ p.probe ctx.graph [] ↔ t ∈ ctx.graph.toList ∧ p.HasKey t ∧ ([] : List Node) = [] :=
      mem_probe_zip_iff .nil rfl fun _ hm => absurd hm List.not_mem_nil
    simpa [h] using found
  next hne =>
    have hl {vs : List Node} {row : Solution}
        (h : ((p.probes ctx).map Prod.snd).map row.get? = vs.map some) :
        ((p.probes ctx).map Prod.fst).length = vs.length := by
      simpa using congrArg List.length h
    simp only [List.mem_flatMap, mem_distinctRows_iff]
    constructor
    · rintro ⟨vs, ⟨row, hrow, hv⟩, ht⟩
      obtain ⟨hg, hk, rfl⟩ := (mem_probe_zip_iff (nodup_positions_probes p ctx) (hl hv)
        fun _ => keyNode?_of_mem_probes).mp ht
      exact ⟨hg, hk, .inr ⟨row, hrow, map_get?_probes_iff.mp hv⟩⟩
    · rintro ⟨hg, hk, hnil | ⟨row, hrow, ha⟩⟩
      · exact absurd hnil hne
      · have hv := map_get?_probes_iff.mpr ha
        exact ⟨_, ⟨row, hrow, hv⟩, (mem_probe_zip_iff (nodup_positions_probes p ctx) (hl hv)
          fun _ => keyNode?_of_mem_probes).mpr ⟨hg, hk, rfl⟩⟩

theorem nodup_probe (p : Pattern) (g : Graph) (values : List (Position × Node)) :
    (p.probe g values).Nodup := by
  rw [probe, g.matching_eq]
  exact g.nodup.filter _

theorem nodup_candidates (p : Pattern) (ctx : Context) : (p.candidates ctx).Nodup := by
  unfold candidates
  split
  · exact nodup_probe p ctx.graph []
  · refine List.nodup_flatMap.mpr ⟨fun vs _ => nodup_probe p ctx.graph _, ?_⟩
    have hn : (ctx.input.distinctRows ((p.probes ctx).map Prod.snd)).Nodup := nodup_eraseDups _
    refine hn.imp_of_mem fun {vs ws} hv hw hne => ?_
    -- A triple determines the row of values with which it is found.
    have determined {us : List Node} {t : Triple}
        (hu : us ∈ ctx.input.distinctRows ((p.probes ctx).map Prod.snd))
        (ht : t ∈ p.probe ctx.graph (((p.probes ctx).map Prod.fst).zip us)) :
        us = ((p.probes ctx).map Prod.fst).map t.nodeAt := by
      obtain ⟨row, _, h⟩ := mem_distinctRows_iff.mp hu
      have hl : ((p.probes ctx).map Prod.fst).length = us.length := by
        simpa using congrArg List.length h
      exact ((mem_probe_zip_iff (nodup_positions_probes p ctx) hl
        fun _ => keyNode?_of_mem_probes).mp ht).2.2
    intro t htv htw
    exact hne ((determined hv htv).trans (determined hw htw).symm)

end TripleStore.Pattern
