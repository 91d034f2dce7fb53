import TripleStore.Graph.Index

/-! # Graphs

A graph is a finite set of triples in the order of their insertion. It keeps them as a set, too, with an
index for each position and, if asked to, one for each pair of positions. The set always holds the
triples of the graph and the indexes group them, so that every look-up is a filter of `Graph.toList`. -/
namespace TripleStore

structure PairIndexes where
  subjectPredicate : Index (Node × Node)
  subjectObject : Index (Node × Node)
  predicateObject : Index (Node × Node)

namespace PairIndexes

def empty : PairIndexes := ⟨.empty, .empty, .empty⟩

def insert (ps : PairIndexes) (t : Triple) : PairIndexes where
  subjectPredicate := ps.subjectPredicate.insert (t.subject, t.predicate) t
  subjectObject := ps.subjectObject.insert (t.subject, t.object) t
  predicateObject := ps.predicateObject.insert (t.predicate, t.object) t

def erase (ps : PairIndexes) (t : Triple) : PairIndexes where
  subjectPredicate := ps.subjectPredicate.erase (t.subject, t.predicate) t
  subjectObject := ps.subjectObject.erase (t.subject, t.object) t
  predicateObject := ps.predicateObject.erase (t.predicate, t.object) t

/-- Each index groups the triples by its pair of positions. -/
structure Groups (ps : PairIndexes) (ts : List Triple) : Prop where
  subjectPredicate : ps.subjectPredicate.Groups (fun t => (t.subject, t.predicate)) ts
  subjectObject : ps.subjectObject.Groups (fun t => (t.subject, t.object)) ts
  predicateObject : ps.predicateObject.Groups (fun t => (t.predicate, t.object)) ts

theorem groups_empty : empty.Groups [] :=
  ⟨Index.groups_empty _, Index.groups_empty _, Index.groups_empty _⟩

theorem Groups.insert {ps : PairIndexes} {ts : List Triple} (h : ps.Groups ts) (t : Triple) :
    (ps.insert t).Groups (ts ++ [t]) :=
  ⟨h.subjectPredicate.insert t, h.subjectObject.insert t, h.predicateObject.insert t⟩

theorem Groups.erase {ps : PairIndexes} {ts : List Triple} (h : ps.Groups ts) (t : Triple) :
    (ps.erase t).Groups (ts.filter (· ≠ t)) :=
  ⟨h.subjectPredicate.erase t, h.subjectObject.erase t, h.predicateObject.erase t⟩

end PairIndexes

/-- Triples in the order of their insertion, with the set and the indexes that are kept beside them. -/
structure Graph where
  toList : List Triple
  /-- The set that decides whether a triple is there. -/
  members : TripleSet
  bySubject : Index Node
  byPredicate : Index Node
  byObject : Index Node
  pairs : Option PairIndexes
  nodup : toList.Nodup
  members_holds : members.Holds toList
  bySubject_groups : bySubject.Groups Triple.subject toList
  byPredicate_groups : byPredicate.Groups Triple.predicate toList
  byObject_groups : byObject.Groups Triple.object toList
  pairs_groups : ∀ ps ∈ pairs, ps.Groups toList

namespace Graph

def empty (withPairs : Bool) : Graph where
  toList := []
  members := .empty
  bySubject := .empty
  byPredicate := .empty
  byObject := .empty
  pairs := if withPairs then some .empty else none
  nodup := .nil
  members_holds := TripleSet.holds_empty
  bySubject_groups := Index.groups_empty _
  byPredicate_groups := Index.groups_empty _
  byObject_groups := Index.groups_empty _
  pairs_groups := by
    intro ps h
    cases withPairs
    · simp at h
    · obtain rfl : PairIndexes.empty = ps := by simpa using h
      exact PairIndexes.groups_empty

def size (g : Graph) : Nat := g.toList.length

def isEmpty (g : Graph) : Bool := g.toList.isEmpty

def contains (g : Graph) (t : Triple) : Bool := g.members.contains t

theorem contains_iff {g : Graph} {t : Triple} : g.contains t = true ↔ t ∈ g.toList := g.members_holds t

def hasPairs (g : Graph) : Bool := g.pairs.isSome

/-- Adds a triple behind the others unless it is there already, and tells whether it was new. -/
def insert (g : Graph) (t : Triple) : Bool × Graph :=
  if h : g.contains t = true then (false, g)
  else (true, {
    toList := g.toList ++ [t]
    members := g.members.insert t
    bySubject := g.bySubject.insert t.subject t
    byPredicate := g.byPredicate.insert t.predicate t
    byObject := g.byObject.insert t.object t
    pairs := g.pairs.map (·.insert t)
    nodup := by
      rw [List.nodup_append]
      refine ⟨g.nodup, by simp, ?_⟩
      rintro a ha b hb rfl
      exact h (contains_iff.mpr (List.mem_singleton.mp hb ▸ ha))
    members_holds := g.members_holds.insert t
    bySubject_groups := g.bySubject_groups.insert t
    byPredicate_groups := g.byPredicate_groups.insert t
    byObject_groups := g.byObject_groups.insert t
    pairs_groups := by
      intro ps hps
      obtain ⟨qs, hqs, rfl⟩ := Option.map_eq_some_iff.mp hps
      exact (g.pairs_groups qs hqs).insert t })

/-- Removes a triple, keeping the order of the others, and tells whether it was there. -/
def erase (g : Graph) (t : Triple) : Bool × Graph :=
  if g.contains t then (true, {
    toList := g.toList.filter (· ≠ t)
    members := g.members.erase t
    bySubject := g.bySubject.erase t.subject t
    byPredicate := g.byPredicate.erase t.predicate t
    byObject := g.byObject.erase t.object t
    pairs := g.pairs.map (·.erase t)
    nodup := g.nodup.sublist List.filter_sublist
    members_holds := g.members_holds.erase t
    bySubject_groups := g.bySubject_groups.erase t
    byPredicate_groups := g.byPredicate_groups.erase t
    byObject_groups := g.byObject_groups.erase t
    pairs_groups := by
      intro ps hps
      obtain ⟨qs, hqs, rfl⟩ := Option.map_eq_some_iff.mp hps
      exact (g.pairs_groups qs hqs).erase t })
  else (false, g)

/-- Adds triples one after the other and counts the new ones. -/
def extend (g : Graph) : List Triple → Nat × Graph
  | [] => (0, g)
  | t :: ts =>
    let (new, g) := g.insert t
    let (n, g) := g.extend ts
    (if new then n + 1 else n, g)

/-- Removes all triples; the choice of indexes stays. -/
def clear (g : Graph) : Graph := empty g.hasPairs

/-- The graph of some triples, with pair indexes. -/
def ofList (ts : List Triple) : Graph := ((empty true).extend ts).2

def summary (g : Graph) : String :=
  "MemoryGraph \x7b len: " ++ toString g.size ++ ", full_indexing: " ++ toString g.hasPairs ++ " \x7d"

@[simp] theorem toList_empty (b : Bool) : (empty b).toList = [] := rfl

@[simp] theorem hasPairs_empty (b : Bool) : (empty b).hasPairs = b := by
  cases b <;> rfl

@[simp] theorem toList_insert (g : Graph) (t : Triple) :
    (g.insert t).2.toList = if t ∈ g.toList then g.toList else g.toList ++ [t] := by
  unfold insert
  split
  next h => rw [if_pos (contains_iff.mp h)]
  next h => rw [if_neg (mt contains_iff.mpr h)]

@[simp] theorem fst_insert (g : Graph) (t : Triple) : (g.insert t).1 = !g.contains t := by
  unfold insert
  split <;> simp [*]

@[simp] theorem hasPairs_insert (g : Graph) (t : Triple) : (g.insert t).2.hasPairs = g.hasPairs := by
  unfold insert hasPairs
  split <;> simp

@[simp] theorem toList_erase (g : Graph) (t : Triple) :
    (g.erase t).2.toList = g.toList.filter (· ≠ t) := by
  unfold erase
  split
  · rfl
  next h =>
    refine (List.filter_eq_self.mpr fun a ha => ?_).symm
    simpa using fun e : a = t => h (contains_iff.mpr (e ▸ ha))

@[simp] theorem fst_erase (g : Graph) (t : Triple) : (g.erase t).1 = g.contains t := by
  unfold erase
  split <;> simp [*]

@[simp] theorem hasPairs_erase (g : Graph) (t : Triple) : (g.erase t).2.hasPairs = g.hasPairs := by
  unfold erase hasPairs
  split <;> simp

@[simp] theorem toList_clear (g : Graph) : g.clear.toList = [] := rfl

end Graph
end TripleStore
