import TripleStore.Association
import TripleStore.Collection

/-! # Registries of collections

A registry maps nodes, the keys, to collections and keeps the order in which keys were first
registered. The key of a list is its first cell, the key of brackets is their blank node. -/
namespace TripleStore

/-- Collections by key, in the order of registration. -/
structure Registry where
  entries : List (Node × Collection)
  nodup : (entries.map Prod.fst).Nodup

namespace Registry

def empty : Registry := ⟨[], .nil⟩

/-- The keys in the order of registration. -/
def keys (r : Registry) : List Node := r.entries.map Prod.fst

def size (r : Registry) : Nat := r.entries.length

def isEmpty (r : Registry) : Bool := r.entries.isEmpty

def get? (r : Registry) (k : Node) : Option Collection := r.entries.lookup k

def contains (r : Registry) (k : Node) : Bool := (r.get? k).isSome

/-- Registers a collection. A collection that was registered under the key before is replaced in its
place and returned. -/
def insert (r : Registry) (k : Node) (c : Collection) : Option Collection × Registry :=
  (r.get? k, ⟨Association.put k c r.entries, Association.nodup_keys_put k c r.nodup⟩)

/-- Removes the collection of a key and returns it. -/
def erase (r : Registry) (k : Node) : Option Collection × Registry :=
  (r.get? k, ⟨Association.drop k r.entries, Association.nodup_keys_drop k r.nodup⟩)

/-- Marks the collection of a key as written and tells whether there is one. -/
def markWritten (r : Registry) (k : Node) : Bool × Registry :=
  match r.get? k with
  | none => (false, r)
  | some c => (true, (r.insert k { c with written := true }).2)

/-- The collections for which a test holds, in the same order. -/
def filter (p : Node → Collection → Bool) (r : Registry) : Registry :=
  ⟨r.entries.filter fun e => p e.1 e.2, r.nodup.sublist (List.filter_sublist.map _)⟩

def without (r : Registry) (ks : List Node) : Registry := r.filter fun k _ => !ks.contains k

/-- The triples that are written as part of some collection, each once. -/
def claims (r : Registry) : List Triple := (r.entries.flatMap fun e => e.2.claims).eraseDups

theorem mem_entries {r : Registry} {k : Node} {c : Collection} :
    (k, c) ∈ r.entries ↔ r.get? k = some c :=
  ⟨Association.lookup_eq_some_of_mem r.nodup, Association.mem_of_lookup_eq_some⟩

theorem contains_iff {r : Registry} {k : Node} : r.contains k = true ↔ ∃ c, r.get? k = some c :=
  Option.isSome_iff_exists

theorem mem_keys {r : Registry} {k : Node} : k ∈ r.keys ↔ r.contains k = true := by
  unfold keys contains get?
  cases h : r.entries.lookup k with
  | none => simpa using Association.lookup_eq_none.mp h
  | some c => simpa using ⟨c, Association.mem_of_lookup_eq_some h⟩

@[simp] theorem get?_empty (k : Node) : empty.get? k = none := rfl

@[simp] theorem get?_insert (r : Registry) (k : Node) (c : Collection) (k' : Node) :
    (r.insert k c).2.get? k' = if k' = k then some c else r.get? k' :=
  Association.lookup_put k c r.entries k'

@[simp] theorem get?_erase (r : Registry) (k : Node) (k' : Node) :
    (r.erase k).2.get? k' = if k' = k then none else r.get? k' :=
  Association.lookup_drop k r.entries k'

theorem get?_markWritten {r : Registry} {k : Node} {c : Collection} (h : r.get? k = some c) (k' : Node) :
    (r.markWritten k).2.get? k' = if k' = k then some { c with written := true } else r.get? k' := by
  simp [markWritten, h]

theorem get?_filter_eq_some {r : Registry} {p : Node → Collection → Bool} {k : Node} {c : Collection} :
    (r.filter p).get? k = some c ↔ r.get? k = some c ∧ p k c = true := by
  rw [← mem_entries, ← mem_entries, filter, List.mem_filter]

theorem filter_congr {r : Registry} {p q : Node → Collection → Bool}
    (h : ∀ k c, r.get? k = some c → p k c = q k c) : r.filter p = r.filter q := by
  have same : (r.entries.filter fun e => p e.1 e.2) = r.entries.filter fun e => q e.1 e.2 :=
    List.filter_congr fun e he => h e.1 e.2 (mem_entries.mp he)
  rw [filter, filter, mk.injEq]
  exact same

theorem get?_without {r : Registry} {ks : List Node} {k : Node} {c : Collection} :
    (r.without ks).get? k = some c ↔ r.get? k = some c ∧ k ∉ ks := by
  rw [without, get?_filter_eq_some, Bool.not_eq_true', List.contains_eq_mem, decide_eq_false_iff_not]

theorem mem_keys_without {r : Registry} {ks : List Node} {k : Node} :
    k ∈ (r.without ks).keys ↔ k ∈ r.keys ∧ k ∉ ks := by
  simp only [mem_keys, contains_iff, get?_without, exists_and_right]

theorem keys_without (r : Registry) (ks : List Node) :
    (r.without ks).keys = r.keys.filter fun k => !ks.contains k := by
  rw [keys, keys, List.filter_map]
  rfl

theorem without_eq_self {r : Registry} {ks : List Node} (h : ∀ k ∈ r.keys, k ∉ ks) :
    r.without ks = r := by
  have all : r.entries.filter (fun e => !ks.contains e.1) = r.entries :=
    List.filter_eq_self.mpr fun e he => by simpa using h e.1 (List.mem_map_of_mem he)
  obtain ⟨es, nodup⟩ := r
  rw [without, filter, mk.injEq]
  exact all

theorem mem_claims {r : Registry} {t : Triple} :
    t ∈ r.claims ↔ ∃ k c, r.get? k = some c ∧ t ∈ c.claims := by
  simp [claims, ← mem_entries]

end Registry
end TripleStore
