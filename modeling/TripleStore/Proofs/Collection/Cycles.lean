import TripleStore.Proofs.Collection.Dependencies
import TripleStore.Proofs.FirstOccurrences

/-! # What the removal of cycles guarantees

The lists of dependencies are extended one after the other, each of them once, so what a list holds in the
end depends on the lists that were extended before it. The list of a key comes to hold the ends of the
paths whose keys, the last two apart, are extended in the opposite order. Any order extends some key of a
cycle of three after the next key of the cycle, so that short cycles are always broken. Dropping
collections makes no new paths and keeps the order of the others, so that nothing is left to do for a
second removal. -/
namespace TripleStore

/-- A sort by size, larger ones first, keeps the order of elements of equal size. -/
theorem pairwise_mergeSort_stable {α : Type} (size : α → Nat) {R : α → α → Prop} {l : List α}
    (h : l.Pairwise R) : (l.mergeSort fun a b => size b ≤ size a).Pairwise
      fun a b => size b < size a ∨ size b = size a ∧ R a b := by
  have trans : ∀ a b c : α, decide (size b ≤ size a) = true → decide (size c ≤ size b) = true →
      decide (size c ≤ size a) = true := by
    simp only [decide_eq_true_eq]
    omega
  have total : ∀ a b : α, (decide (size b ≤ size a) || decide (size a ≤ size b)) = true := by
    simp only [Bool.or_eq_true, decide_eq_true_eq]
    omega
  induction l with
  | nil => simp
  | cons a l ih =>
    obtain ⟨before, behind⟩ := List.pairwise_cons.mp h
    -- The sort puts the first element behind the strictly larger ones.
    obtain ⟨l₁, l₂, sorted, rest, larger⟩ := List.mergeSort_cons trans total a l
    have descending := List.pairwise_mergeSort trans total (a :: l)
    have ih := ih behind
    rw [sorted] at descending ⊢
    rw [rest] at ih
    obtain ⟨first, last, between⟩ := List.pairwise_append.mp ih
    obtain ⟨-, tail, -⟩ := List.pairwise_append.mp descending
    refine List.pairwise_append.mpr ⟨first, List.pairwise_cons.mpr ⟨fun b hb => ?_, last⟩, ?_⟩
    · have le : size b ≤ size a := by simpa using (List.pairwise_cons.mp tail).1 b hb
      have hl : b ∈ l := by
        have member : b ∈ l.mergeSort fun a b => size b ≤ size a := by
          rw [rest]
          exact List.mem_append_right _ hb
        exact List.mem_mergeSort.mp member
      have kept := before b hl
      rcases Nat.lt_or_eq_of_le le with lt | eq
      · exact .inl lt
      · exact .inr ⟨eq, kept⟩
    · intro b hb c hc
      rcases List.mem_cons.mp hc with rfl | hc
      · left
        simpa using larger b hb
      · exact between b hb c hc

namespace Registry

/-- The number of triples in the collection of a key. -/
def sizeAt (r : Registry) (k : Node) : Nat := (r.get? k).elim 0 Collection.size

theorem sizeAt_without {r : Registry} {ks : List Node} {k : Node} (h : k ∈ (r.without ks).keys) :
    (r.without ks).sizeAt k = r.sizeAt k := by
  obtain ⟨c, hc⟩ := contains_iff.mp (mem_keys.mp h)
  rw [sizeAt, sizeAt, hc, (get?_without.mp hc).1]

end Registry

namespace Analysis

/-- A triple of the collection of one key has another key, a blank node, as its object. -/
structure Refers (r : Registry) (k d : Node) : Prop where
  item : ∃ c, r.get? k = some c ∧ ∃ t ∈ c.triples, t.object = d
  blank : d.isBlank = true
  other : d ≠ k
  registered : d ∈ r.keys

/-- The dependencies of one key are extended before those of another one: its collection is larger, or it
is as large and the key has been registered earlier. -/
def Precedes (r : Registry) (j k : Node) : Prop :=
  r.sizeAt k < r.sizeAt j ∨ r.sizeAt k = r.sizeAt j ∧ r.keys.idxOf j < r.keys.idxOf k

/-- What stands in the list of a key after its extension: what the key refers to, what these keys refer to,
and, for those of them whose lists have been extended before, what stands in their lists. -/
inductive Gathers (r : Registry) : Node → Node → Prop
  | direct {k d : Node} : Refers r k d → Gathers r k d
  | next {k m d : Node} : Refers r k m → Refers r m d → Gathers r k d
  | earlier {k m d : Node} : Refers r k m → Precedes r m k → Gathers r m d → Gathers r k d

section
variable {r : Registry} {j k d : Node}

theorem dependsOn_iff_refers : DependsOn r k d ↔ Refers r k d := by
  unfold DependsOn
  simp only [mem_dependencies, Collection.items, List.mem_map]
  constructor
  · rintro ⟨c, hc, item, blank, other, registered⟩
    exact ⟨⟨c, hc, item⟩, blank, other, Registry.mem_keys.mpr registered⟩
  · rintro ⟨⟨c, hc, item⟩, blank, other, registered⟩
    exact ⟨c, hc, item, blank, other, Registry.mem_keys.mp registered⟩

theorem mem_dependencies_iff_refers {c : Collection} (hk : r.get? k = some c) :
    d ∈ dependencies r k c ↔ Refers r k d := by
  rw [← dependsOn_iff_refers]
  constructor
  · exact fun hd => ⟨c, hk, hd⟩
  · rintro ⟨c', hc', hd⟩
    rwa [Option.some.inj (hk.symm.trans hc')]

theorem Refers.mem_keys (h : Refers r k d) : k ∈ r.keys := by
  obtain ⟨c, hc, -⟩ := h.item
  exact Registry.mem_keys.mpr (Registry.contains_iff.mpr ⟨c, hc⟩)

theorem Gathers.exists_refers (h : Gathers r k d) : ∃ m, Refers r k m := by
  cases h with
  | direct h => exact ⟨_, h⟩
  | next h _ => exact ⟨_, h⟩
  | earlier h _ _ => exact ⟨_, h⟩

theorem Precedes.asymm (h : Precedes r j k) : ¬ Precedes r k j := by
  unfold Precedes at h ⊢
  omega

theorem not_precedes_self (r : Registry) (k : Node) : ¬ Precedes r k k :=
  fun h => h.asymm h

theorem precedes_total (hj : j ∈ r.keys) (ne : j ≠ k) : Precedes r j k ∨ Precedes r k j := by
  have apart : r.keys.idxOf j ≠ r.keys.idxOf k := fun same => ne ((List.idxOf_inj hj).mp same)
  unfold Precedes
  omega

theorem Precedes.trans {i : Node} (h : Precedes r i j) (h' : Precedes r j k) : Precedes r i k := by
  unfold Precedes at *
  omega

/-- The lists of dependencies stand in the order in which they are extended. -/
theorem ordered_dependencyLists (r : Registry) :
    (dependencyLists r).Pairwise fun e f => Precedes r e.1 f.1 := by
  have keys : r.keys.Pairwise fun j k => r.keys.idxOf j < r.keys.idxOf k :=
    FirstOccurrences.pairwise_idxOf_of_nodup r.nodup
  have registered : r.entries.Pairwise fun e f => r.keys.idxOf e.1 < r.keys.idxOf f.1 :=
    List.Pairwise.of_map (S := fun j k => r.keys.idxOf j < r.keys.idxOf k) Prod.fst (fun _ _ h => h) keys
  have sorted := pairwise_mergeSort_stable (fun e => e.2.size) registered
  have size {e : Node × Collection} (he : e ∈ r.entries.mergeSort fun a b => b.2.size ≤ a.2.size) :
      r.sizeAt e.1 = e.2.size := by
    rw [Registry.sizeAt, Registry.mem_entries.mp (List.mem_mergeSort.mp he)]
    rfl
  refine List.Pairwise.filter _ (List.pairwise_map.mpr (sorted.imp_of_mem fun he hf h => ?_))
  rwa [Precedes, size he, size hf]

end

/-- Some lists have been extended, in their order, and the others still hold what their keys refer to. -/
structure Extending (r : Registry) (done rest : List (Node × List Node)) : Prop where
  extended : ∀ e ∈ done, ∀ d, d ∈ e.2 ↔ Gathers r e.1 d
  direct : ∀ e ∈ rest, ∀ d, d ∈ e.2 ↔ Refers r e.1 d
  complete : ∀ k d, Refers r k d → k ∈ (done ++ rest).map Prod.fst
  ordered : (done ++ rest).Pairwise fun e f => Precedes r e.1 f.1

section
variable {r : Registry} {done rest : List (Node × List Node)}

theorem extending_dependencyLists (r : Registry) : Extending r [] (dependencyLists r) where
  extended _ he := absurd he List.not_mem_nil
  direct e he d := by
    obtain ⟨f, hf, rfl⟩ := List.mem_map.mp (List.mem_filter.mp he).1
    exact mem_dependencies_iff_refers (Registry.mem_entries.mp (List.mem_mergeSort.mp hf))
  complete k d h := by
    obtain ⟨c, hc, -⟩ := h.item
    have member : d ∈ dependencies r k c := (mem_dependencies_iff_refers hc).mpr h
    have listed : (k, dependencies r k c) ∈ dependencyLists r := by
      refine List.mem_filter.mpr ⟨List.mem_map.mpr ⟨(k, c), ?_, rfl⟩, ?_⟩
      · exact List.mem_mergeSort.mpr (Registry.mem_entries.mpr hc)
      · simpa using List.ne_nil_of_mem member
    exact List.mem_map_of_mem listed
  ordered := ordered_dependencyLists r

namespace Extending

/-- What is found for a key while the lists are being extended. -/
theorem mem_lookup (h : Extending r done rest) {m d : Node} :
    d ∈ (List.lookup m (done ++ rest)).getD [] ↔
      Refers r m d ∨ m ∈ done.map Prod.fst ∧ Gathers r m d := by
  cases hl : List.lookup m (done ++ rest) with
  | none =>
    have absent := Association.lookup_eq_none.mp hl
    rw [List.map_append, List.mem_append, not_or] at absent
    constructor
    · exact fun hd => absurd hd List.not_mem_nil
    · rintro (refers | ⟨member, -⟩)
      · exact absurd (h.complete m d refers) (Association.lookup_eq_none.mp hl)
      · exact absurd member absent.1
  | some ms =>
    rw [Option.getD_some]
    rcases List.mem_append.mp (Association.mem_of_lookup_eq_some hl) with member | member
    · have extended : d ∈ ms ↔ Gathers r m d := h.extended _ member d
      rw [extended]
      constructor
      · exact fun gathers => .inr ⟨List.mem_map_of_mem member, gathers⟩
      · rintro (refers | ⟨-, gathers⟩)
        · exact .direct refers
        · exact gathers
    · have direct : d ∈ ms ↔ Refers r m d := h.direct _ member d
      rw [direct]
      constructor
      · exact .inl
      · rintro (refers | ⟨twice, -⟩)
        · exact refers
        · obtain ⟨e, he, same⟩ := List.mem_map.mp twice
          have before := (List.pairwise_append.mp h.ordered).2.2 e he _ member
          rw [same] at before
          exact absurd before (not_precedes_self r m)

theorem mem_extended {k d : Node} {ds : List Node} (h : Extending r done ((k, ds) :: rest)) :
    (d ∈ ds ++ ds.flatMap fun m => (List.lookup m (done ++ (k, ds) :: rest)).getD []) ↔
      Gathers r k d := by
  obtain ⟨-, later, earlier⟩ := List.pairwise_append.mp h.ordered
  have direct (m : Node) : m ∈ ds ↔ Refers r k m := h.direct (k, ds) List.mem_cons_self m
  simp only [List.mem_append, List.mem_flatMap, h.mem_lookup, direct]
  constructor
  · rintro (refers | ⟨m, refers, next | ⟨member, gathers⟩⟩)
    · exact .direct refers
    · exact .next refers next
    · obtain ⟨e, he, rfl⟩ := List.mem_map.mp member
      exact .earlier refers (earlier e he (k, ds) List.mem_cons_self) gathers
  · intro gathers
    cases gathers with
    | direct refers => exact .inl refers
    | next refers next => exact .inr ⟨_, refers, .inl next⟩
    | @earlier _ m _ refers before gathers =>
      refine .inr ⟨m, refers, .inr ⟨?_, gathers⟩⟩
      obtain ⟨x, hx⟩ := gathers.exists_refers
      have listed := h.complete m x hx
      -- A list that precedes has been extended already.
      rw [List.map_append, List.map_cons, List.mem_append, List.mem_cons] at listed
      rcases listed with member | rfl | member
      · exact member
      · exact absurd before (not_precedes_self r m)
      · obtain ⟨e, he, rfl⟩ := List.mem_map.mp member
        exact absurd ((List.pairwise_cons.mp later).1 e he) before.asymm

theorem step {k : Node} {ds : List Node} (h : Extending r done ((k, ds) :: rest)) :
    Extending r (done ++
      [(k, ds ++ ds.flatMap fun m => (List.lookup m (done ++ (k, ds) :: rest)).getD [])]) rest where
  extended e he d := by
    rcases List.mem_append.mp he with he | he
    · exact h.extended e he d
    · rw [List.mem_singleton.mp he]
      exact h.mem_extended
  direct e he := h.direct e (List.mem_cons_of_mem _ he)
  complete k d refers := by simpa using h.complete k d refers
  ordered := by
    have ordered := List.pairwise_map.mpr h.ordered
    apply List.pairwise_map.mp
    simpa using ordered

theorem run (h : Extending r done rest) : Extending r (extendLists done rest) [] := by
  induction rest generalizing done with
  | nil => exact h
  | cons e rest ih => exact ih h.step

end Extending

/-- A key is dropped if and only if it stands in its own list in the end. -/
theorem mem_cyclicKeys_iff {k : Node} : k ∈ cyclicKeys r ↔ Gathers r k k := by
  have run := (extending_dependencyLists r).run
  simp only [cyclicKeys, List.mem_map, List.mem_filter, List.contains_iff_mem]
  constructor
  · rintro ⟨e, ⟨he, own⟩, rfl⟩
    exact (run.extended e he e.1).mp own
  · intro gathers
    obtain ⟨d, refers⟩ := gathers.exists_refers
    have listed := run.complete k d refers
    rw [List.append_nil] at listed
    obtain ⟨e, he, rfl⟩ := List.mem_map.mp listed
    exact ⟨e, ⟨he, (run.extended e he e.1).mpr gathers⟩, rfl⟩

section
variable {ks : List Node} {j k d : Node}

theorem Refers.of_without (h : Refers (r.without ks) k d) : Refers r k d := by
  obtain ⟨⟨c, hc, item⟩, blank, other, registered⟩ := h
  exact ⟨⟨c, (Registry.get?_without.mp hc).1, item⟩, blank, other,
    (Registry.mem_keys_without.mp registered).1⟩

/-- Collections that are left keep their order. -/
theorem Precedes.of_without (hj : j ∈ (r.without ks).keys) (hk : k ∈ (r.without ks).keys)
    (h : Precedes (r.without ks) j k) : Precedes r j k := by
  unfold Precedes at h ⊢
  rw [Registry.sizeAt_without hj, Registry.sizeAt_without hk, Registry.keys_without] at h
  have kept {n : Node} (hn : n ∈ (r.without ks).keys) : (!ks.contains n) = true := by
    simpa using (Registry.mem_keys_without.mp hn).2
  rcases h with larger | ⟨same, earlier⟩
  · exact .inl larger
  · exact .inr ⟨same, FirstOccurrences.idxOf_lt_of_filter (kept hj) (kept hk) earlier⟩

theorem Gathers.of_without (h : Gathers (r.without ks) k d) : Gathers r k d := by
  induction h with
  | direct refers => exact .direct refers.of_without
  | next refers next => exact .next refers.of_without next.of_without
  | earlier refers before _ ih =>
    exact .earlier refers.of_without (before.of_without refers.registered refers.mem_keys) ih

end

/-- Two collections that refer to each other are both dropped. -/
theorem mem_cyclicKeys_of_mutual {j k : Node} (h : Refers r j k) (h' : Refers r k j) :
    j ∈ cyclicKeys r :=
  mem_cyclicKeys_iff.mpr (.next h h')

/-- Of three collections that refer to each other in a cycle, one is extended after the next one. -/
theorem exists_mem_cyclicKeys {i j k : Node} (hij : Refers r i j) (hjk : Refers r j k)
    (hki : Refers r k i) : i ∈ cyclicKeys r ∨ j ∈ cyclicKeys r ∨ k ∈ cyclicKeys r := by
  have dropped {x y z : Node} (hxy : Refers r x y) (hyz : Refers r y z) (hzx : Refers r z x)
      (before : Precedes r y x) : x ∈ cyclicKeys r :=
    mem_cyclicKeys_iff.mpr (.earlier hxy before (.next hyz hzx))
  rcases precedes_total hij.mem_keys hij.other.symm with ij | ji
  · rcases precedes_total hjk.mem_keys hjk.other.symm with jk | kj
    · exact .inr (.inr (dropped hki hij hjk (ij.trans jk)))
    · exact .inr (.inl (dropped hjk hki hij kj))
  · exact .inl (dropped hij hjk hki ji)

/-- Nothing is left to do for a second removal. -/
theorem cyclicKeys_without_cyclicKeys (r : Registry) :
    cyclicKeys (r.without (cyclicKeys r)) = [] := by
  refine List.eq_nil_iff_forall_not_mem.mpr fun k hk => ?_
  have gathers := mem_cyclicKeys_iff.mp hk
  obtain ⟨d, refers⟩ := gathers.exists_refers
  have kept : k ∉ cyclicKeys r := (Registry.mem_keys_without.mp refers.mem_keys).2
  exact kept (mem_cyclicKeys_iff.mpr gathers.of_without)

/-- The removal of cycles leaves the collections that it does not drop, in their order. It drops only keys
on a cycle of references, and both keys of a cycle of two. No cycle of two or three is left, and a second
removal changes nothing. -/
theorem dropCyclic_guarantee (a : Analysis) :
    let r := a.registry
    let s := (dropCyclic a).registry
    s.entries.Sublist r.entries ∧
      (∀ k ∈ r.keys, k ∉ s.keys → Relation.TransGen (Refers r) k k) ∧
      (∀ j k, Refers r j k → Refers r k j → j ∉ s.keys ∧ k ∉ s.keys) ∧
      (∀ i j, Refers s i j → ¬ Refers s j i ∧ ∀ k, Refers s j k → ¬ Refers s k i) ∧
      dropCyclic (dropCyclic a) = dropCyclic a := by
  intro r s
  have kept {k : Node} : k ∈ s.keys ↔ k ∈ r.keys ∧ k ∉ cyclicKeys r := Registry.mem_keys_without
  have both {j k : Node} (h : Refers r j k) (h' : Refers r k j) : j ∉ s.keys := fun hj =>
    (kept.mp hj).2 (mem_cyclicKeys_of_mutual h h')
  refine ⟨List.filter_sublist, fun k hk dropped => ?_, fun j k h h' => ⟨both h h', both h' h⟩,
    fun i j hij => ⟨fun hji => ?_, fun k hjk hki => ?_⟩, ?_⟩
  · have cyclic : k ∈ cyclicKeys r := by
      by_contra not
      exact dropped (kept.mpr ⟨hk, not⟩)
    exact Relation.TransGen.mono (fun _ _ => dependsOn_iff_refers.mp) _ _ (transGen_of_mem_cyclicKeys cyclic)
  · exact both hij.of_without hji.of_without hij.mem_keys
  · rcases exists_mem_cyclicKeys hij.of_without hjk.of_without hki.of_without with hi | hj | hk
    · exact (kept.mp hij.mem_keys).2 hi
    · exact (kept.mp hjk.mem_keys).2 hj
    · exact (kept.mp hki.mem_keys).2 hk
  · have none : cyclicKeys s = [] := cyclicKeys_without_cyclicKeys r
    have same : s.without (cyclicKeys s) = s := by
      rw [none]
      exact Registry.without_eq_self fun _ _ => List.not_mem_nil
    exact congrArg (fun registry => { dropCyclic a with registry }) same

end

end Analysis
end TripleStore
