import TripleStore.Association
import TripleStore.Triple

/-! # Sets and indexes of triples

A set of triples is seen through `contains` alone; it holds a list of triples when it contains just these.
An index keeps the triples of each key together, in the order in which they were added. It is seen
through `get`; an index groups a list of triples by a key when every `get` is a filter of the list. -/
namespace TripleStore

/-- Triples in no order. -/
structure TripleSet where
  elements : List Triple

namespace TripleSet

def empty : TripleSet := ⟨[]⟩

def contains (s : TripleSet) (t : Triple) : Bool := s.elements.contains t

def insert (s : TripleSet) (t : Triple) : TripleSet := ⟨t :: s.elements⟩

def erase (s : TripleSet) (t : Triple) : TripleSet := ⟨s.elements.filter (· ≠ t)⟩

/-- The set contains just the triples of a list. -/
def Holds (s : TripleSet) (ts : List Triple) : Prop := ∀ t, s.contains t = true ↔ t ∈ ts

theorem holds_empty : empty.Holds [] := fun _ => by simp [contains, empty]

theorem Holds.insert {s : TripleSet} {ts : List Triple} (h : s.Holds ts) (t : Triple) :
    (s.insert t).Holds (ts ++ [t]) := by
  intro u
  rw [contains, TripleSet.insert, List.contains_cons, Bool.or_eq_true, beq_iff_eq, ← contains, h u,
    List.mem_append, List.mem_singleton, or_comm]

theorem Holds.erase {s : TripleSet} {ts : List Triple} (h : s.Holds ts) (t : Triple) :
    (s.erase t).Holds (ts.filter (· ≠ t)) := by
  intro u
  rw [contains, TripleSet.erase, List.contains_iff_mem, List.mem_filter, List.mem_filter,
    ← List.contains_iff_mem, ← contains, h u]

end TripleSet

/-- Triples in buckets by key. -/
structure Index (κ : Type) where
  buckets : List (κ × List Triple)

namespace Index
variable {κ : Type} [DecidableEq κ]

def empty : Index κ := ⟨[]⟩

def get (ix : Index κ) (k : κ) : List Triple := (ix.buckets.lookup k).getD []

/-- Replaces the triples of a key; an empty bucket is dropped. -/
def set (ix : Index κ) (k : κ) (ts : List Triple) : Index κ :=
  if ts.isEmpty then ⟨Association.drop k ix.buckets⟩ else ⟨Association.put k ts ix.buckets⟩

/-- Adds a triple behind the triples of its key. -/
def insert (ix : Index κ) (k : κ) (t : Triple) : Index κ := ix.set k (ix.get k ++ [t])

/-- Removes a triple from the triples of its key. -/
def erase (ix : Index κ) (k : κ) (t : Triple) : Index κ := ix.set k ((ix.get k).filter (· ≠ t))

theorem get_set (ix : Index κ) (k : κ) (ts : List Triple) (k' : κ) :
    (ix.set k ts).get k' = if k' = k then ts else ix.get k' := by
  unfold set get
  split
  next h =>
    rw [List.isEmpty_iff] at h
    rw [Association.lookup_drop]
    split <;> simp [h]
  next h =>
    rw [Association.lookup_put]
    split <;> simp

/-- The index groups a list of triples by a key. -/
def Groups (ix : Index κ) (key : Triple → κ) (ts : List Triple) : Prop :=
  ∀ k, ix.get k = ts.filter (fun t => key t = k)

theorem groups_empty (key : Triple → κ) : (empty : Index κ).Groups key [] := fun _ => rfl

theorem Groups.insert {ix : Index κ} {key : Triple → κ} {ts : List Triple} (h : ix.Groups key ts)
    (t : Triple) : (ix.insert (key t) t).Groups key (ts ++ [t]) := by
  intro k
  rw [Index.insert, get_set]
  split
  next hk => subst hk; simp [h _]
  next hk => simp [h _, Ne.symm hk]

theorem Groups.erase {ix : Index κ} {key : Triple → κ} {ts : List Triple} (h : ix.Groups key ts)
    (t : Triple) : (ix.erase (key t) t).Groups key (ts.filter (· ≠ t)) := by
  intro k
  rw [Index.erase, get_set, List.filter_filter]
  split
  next hk =>
    subst hk
    rw [h, List.filter_filter]
    exact List.filter_congr fun a _ => Bool.and_comm _ _
  next hk =>
    rw [h]
    refine List.filter_congr fun a _ => ?_
    by_cases ha : a = t
    · subst ha; simp [Ne.symm hk]
    · simp [ha]

end Index
end TripleStore
