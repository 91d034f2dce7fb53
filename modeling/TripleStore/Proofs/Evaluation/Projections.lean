import TripleStore.Proofs.Evaluation.Candidates

/-! # Projections of solutions

The values that solutions bind to some names, taken together in rows. Only solutions that bind all of the
names count, each row is listed once, and rows stand in the order of the first solutions that have them.
The values of a single name and the pairs of values of two names are rows, too. -/
namespace TripleStore.Solutions
open FirstOccurrences

/-- The number of solutions before the first one that binds some names to a row of values. -/
def placeOf (m : Solutions) (names : List String) (values : List Node) : Nat :=
  m.rows.findIdx fun row => names.map row.get? = values.map some

/-- The rows of values stand in the order of the first solutions that have them. -/
theorem pairwise_placeOf_distinctRows (m : Solutions) (names : List String) :
    (m.distinctRows names).Pairwise fun v w => m.placeOf names v < m.placeOf names w := by
  refine (pairwise_idxOf_eraseDups _).imp fun {v w} h => ?_
  simpa only [placeOf, Pattern.rowValues_eq_some_iff] using findIdx_lt_of_filterMap h

theorem distinctRows_singleton (m : Solutions) (x : String) :
    m.distinctRows [x] = (m.distinctValues x).map fun v => [v] := by
  have inj : Function.Injective fun v : Node => [v] := fun v w h => List.singleton_inj.mp h
  rw [distinctRows, distinctValues, ← eraseDups_map inj, List.map_filterMap]
  congr 1
  refine List.filterMap_congr fun row _ => ?_
  cases h : row.get? x <;> simp [rowValues, h]

theorem distinctRows_pair (m : Solutions) (x y : String) :
    m.distinctRows [x, y] = (m.distinctPairs x y).map fun e => [e.1, e.2] := by
  have inj : Function.Injective fun e : Node × Node => [e.1, e.2] := fun v w h => by
    simpa [Prod.ext_iff] using h
  rw [distinctRows, distinctPairs, ← eraseDups_map inj, List.map_filterMap]
  congr 1
  refine List.filterMap_congr fun row _ => ?_
  cases hx : row.get? x <;> cases hy : row.get? y <;> simp [rowValues, hx, hy]

theorem hasValue_iff {m : Solutions} {x : String} {n : Node} :
    m.hasValue x n = true ↔ n ∈ m.distinctValues x := by
  simp only [hasValue, List.any_eq_true, decide_eq_true_eq, Pattern.mem_distinctValues_iff]

/-- The distinct rows for some names are the rows of values of just the solutions that bind all of these
names: each row once, in the order of the first solutions that have them. The values of one name and the
pairs of values of two names are the distinct rows for these names, and a name has a value exactly if the
value is among the distinct ones. -/
theorem distinctRows_agree (m : Solutions) :
    (∀ names, (m.distinctRows names).Nodup ∧
      (∀ values, values ∈ m.distinctRows names ↔
        ∃ row ∈ m.rows, names.map row.get? = values.map some) ∧
      (m.distinctRows names).Pairwise fun v w => m.placeOf names v < m.placeOf names w) ∧
    (∀ x, m.distinctRows [x] = (m.distinctValues x).map fun v => [v]) ∧
    (∀ x y, m.distinctRows [x, y] = (m.distinctPairs x y).map fun e => [e.1, e.2]) ∧
    ∀ x n, m.hasValue x n = true ↔ n ∈ m.distinctValues x := by
  refine ⟨fun names => ⟨nodup_eraseDups _, fun values => Pattern.mem_distinctRows_iff, ?_⟩, ?_, ?_, ?_⟩
  · exact pairwise_placeOf_distinctRows m names
  · exact distinctRows_singleton m
  · exact distinctRows_pair m
  · exact fun x n => hasValue_iff

end TripleStore.Solutions
