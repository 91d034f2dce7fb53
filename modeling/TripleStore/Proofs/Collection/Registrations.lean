import Mathlib.Data.List.Basic
import Mathlib.Logic.Function.Basic
import TripleStore.Collection.Registry

/-! # Registries as keys beside a table

A registry can be kept in two parts that are updated separately: the keys in the order of registration,
and a table of collections that knows no order. Every sequence of calls gives the same replies on both,
and the two parts stay in step: the keys are just the nodes with a collection in the table, each once, so
that going through the keys meets every collection. -/
namespace TripleStore

/-- Keys in the order of registration beside a table of the collections. -/
structure KeyedTable where
  keys : List Node
  table : Node → Option Collection

namespace KeyedTable

def empty : KeyedTable := ⟨[], fun _ => none⟩

/-- Puts a collection into the table. Its key is new if the table had no collection there. -/
def insert (t : KeyedTable) (k : Node) (c : Collection) : Option Collection × KeyedTable :=
  (t.table k, {
    keys := if (t.table k).isSome then t.keys else t.keys ++ [k]
    table := Function.update t.table k (some c) })

/-- Takes a collection out of the table and, if there was one, its key out of the keys. -/
def erase (t : KeyedTable) (k : Node) : Option Collection × KeyedTable :=
  match t.table k with
  | none => (none, t)
  | some c => (some c, ⟨t.keys.filter (· ≠ k), Function.update t.table k none⟩)

/-- Changes a collection within the table and returns it as it was. -/
def modify (t : KeyedTable) (k : Node) (change : Collection → Collection) :
    Option Collection × KeyedTable :=
  match t.table k with
  | none => (none, t)
  | some c => (some c, { t with table := Function.update t.table k (some (change c)) })

def markWritten (t : KeyedTable) (k : Node) : Bool × KeyedTable :=
  let marked := t.modify k fun c => { c with written := true }
  (marked.1.isSome, marked.2)

/-- The keys with their collections. A key without one would be passed over. -/
def entries (t : KeyedTable) : List (Node × Collection) :=
  t.keys.filterMap fun k => (t.table k).map fun c => (k, c)

end KeyedTable

namespace Registry

def parts (r : Registry) : KeyedTable := ⟨r.keys, r.get?⟩

/-- Changes the collection of a key in its place and returns it as it was. -/
def modify (r : Registry) (k : Node) (change : Collection → Collection) : Option Collection × Registry :=
  match r.get? k with
  | none => (none, r)
  | some c => (some c, (r.insert k (change c)).2)

theorem markWritten_eq_modify (r : Registry) (k : Node) :
    let marked := r.modify k fun c => { c with written := true }
    r.markWritten k = (marked.1.isSome, marked.2) := by
  cases h : r.get? k <;> simp [markWritten, modify, h]

theorem nodup_keys (r : Registry) : r.keys.Nodup := r.nodup

theorem keys_insert (r : Registry) (k : Node) (c : Collection) :
    (r.insert k c).2.keys = if r.contains k then r.keys else r.keys ++ [k] := by
  split
  next h => exact Association.keys_put_of_mem c (mem_keys.mpr h)
  next h =>
    have put := Association.put_of_not_mem c (mt mem_keys.mp h)
    exact (congrArg (List.map Prod.fst) put).trans List.map_append

theorem keys_erase (r : Registry) (k : Node) : (r.erase k).2.keys = r.keys.filter (· ≠ k) := by
  simp only [keys, erase, Association.drop, List.filter_map]
  rfl

theorem keys_modify (r : Registry) (k : Node) (change : Collection → Collection) :
    (r.modify k change).2.keys = r.keys := by
  cases h : r.get? k with
  | none => simp [modify, h]
  | some c => simp [modify, h, keys_insert, contains]

theorem keys_markWritten (r : Registry) (k : Node) : (r.markWritten k).2.keys = r.keys := by
  rw [markWritten_eq_modify, keys_modify]

/-- The keys meet every entry, in the order of the entries. -/
theorem entries_parts (r : Registry) : r.parts.entries = r.entries := by
  have found : ∀ e ∈ r.entries, ((r.get? e.1).map fun c => (e.1, c)) = some e := fun e he => by
    rw [mem_entries.mp he, Option.map_some]
  calc r.parts.entries = r.entries.filterMap fun e => (r.get? e.1).map fun c => (e.1, c) := by
        rw [KeyedTable.entries, parts, keys, List.filterMap_map]
        rfl
    _ = r.entries.filterMap some := List.filterMap_congr found
    _ = r.entries := List.filterMap_some

theorem parts_insert (r : Registry) (k : Node) (c : Collection) :
    ((r.insert k c).1, (r.insert k c).2.parts) = r.parts.insert k c := by
  have table : (r.insert k c).2.get? = Function.update r.get? k (some c) := by
    funext k'
    rw [get?_insert, Function.update_apply]
  simp only [parts, keys_insert, table, KeyedTable.insert, contains]
  rfl

theorem parts_erase (r : Registry) (k : Node) :
    ((r.erase k).1, (r.erase k).2.parts) = r.parts.erase k := by
  have reply : (r.erase k).1 = r.get? k := rfl
  have table : (r.erase k).2.get? = Function.update r.get? k none := by
    funext k'
    rw [get?_erase, Function.update_apply]
  cases h : r.get? k with
  | none =>
    have absent : ∀ k' ∈ r.keys, k' ≠ k := fun k' hk' e => by
      simpa [contains, e, h] using mem_keys.mp hk'
    have keys : (r.erase k).2.keys = r.keys := by
      rw [keys_erase]
      exact List.filter_eq_self.mpr fun k' hk' => by simpa using absent k' hk'
    have same : Function.update r.get? k none = r.get? := by rw [← h, Function.update_eq_self]
    simp [parts, KeyedTable.erase, reply, keys, table, same, h]
  | some c => simp [parts, KeyedTable.erase, reply, keys_erase, table, h]

theorem fst_modify (r : Registry) (k : Node) (change : Collection → Collection) :
    (r.modify k change).1 = r.get? k := by
  cases h : r.get? k <;> simp [modify, h]

/-- Only the collection of the key is changed. -/
theorem get?_modify (r : Registry) (k : Node) (change : Collection → Collection) (k' : Node) :
    (r.modify k change).2.get? k' = if k' = k then (r.get? k).map change else r.get? k' := by
  cases h : r.get? k with
  | none =>
    have same : (r.modify k change).2 = r := by simp [modify, h]
    rw [same, Option.map_none]
    split
    next e => rw [e, h]
    next => rfl
  | some c => simp [modify, h]

theorem parts_modify (r : Registry) (k : Node) (change : Collection → Collection) :
    ((r.modify k change).1, (r.modify k change).2.parts) = r.parts.modify k change := by
  cases h : r.get? k with
  | none => simp [parts, KeyedTable.modify, modify, h]
  | some c =>
    have table : (r.modify k change).2.get? = Function.update r.get? k (some (change c)) := by
      funext k'
      rw [get?_modify, h, Option.map_some, Function.update_apply]
    simp [parts, KeyedTable.modify, fst_modify, keys_modify, table, h]

theorem parts_markWritten (r : Registry) (k : Node) :
    ((r.markWritten k).1, (r.markWritten k).2.parts) = r.parts.markWritten k := by
  rw [markWritten_eq_modify, KeyedTable.markWritten, ← parts_modify]

/-- A collection that is taken out and registered again goes to the end. -/
theorem keys_insert_erase (r : Registry) (k : Node) (c : Collection) :
    ((r.erase k).2.insert k c).2.keys = r.keys.filter (· ≠ k) ++ [k] := by
  rw [keys_insert, keys_erase, if_neg (by simp [contains])]

end Registry

/-- A call that changes a registry. -/
inductive RegistryCall
  | insert (k : Node) (c : Collection)
  | erase (k : Node)
  | modify (k : Node) (change : Collection → Collection)
  | markWritten (k : Node)

/-- What a call answers: the collection that was registered before, or whether there is one. -/
inductive RegistryReply
  | previous (c : Option Collection)
  | found (b : Bool)
  deriving DecidableEq

namespace RegistryCall

def apply (r : Registry) : RegistryCall → RegistryReply × Registry
  | .insert k c => (.previous (r.insert k c).1, (r.insert k c).2)
  | .erase k => (.previous (r.erase k).1, (r.erase k).2)
  | .modify k change => (.previous (r.modify k change).1, (r.modify k change).2)
  | .markWritten k => (.found (r.markWritten k).1, (r.markWritten k).2)

/-- The same call on keys beside a table. -/
def applyParts (t : KeyedTable) : RegistryCall → RegistryReply × KeyedTable
  | .insert k c => (.previous (t.insert k c).1, (t.insert k c).2)
  | .erase k => (.previous (t.erase k).1, (t.erase k).2)
  | .modify k change => (.previous (t.modify k change).1, (t.modify k change).2)
  | .markWritten k => (.found (t.markWritten k).1, (t.markWritten k).2)

def run {ρ : Type} (step : ρ → RegistryCall → RegistryReply × ρ) (r : ρ) :
    List RegistryCall → List RegistryReply × ρ
  | [] => ([], r)
  | c :: cs => ((step r c).1 :: (run step (step r c).2 cs).1, (run step (step r c).2 cs).2)

theorem apply_parts (r : Registry) (c : RegistryCall) :
    ((c.apply r).1, (c.apply r).2.parts) = c.applyParts r.parts := by
  cases c with
  | insert k c => rw [applyParts, ← Registry.parts_insert]; rfl
  | erase k => rw [applyParts, ← Registry.parts_erase]; rfl
  | modify k change => rw [applyParts, ← Registry.parts_modify]; rfl
  | markWritten k => rw [applyParts, ← Registry.parts_markWritten]; rfl

theorem run_parts (r : Registry) (cs : List RegistryCall) :
    (run (fun r c => c.apply r) r cs).1 = (run (fun t c => c.applyParts t) r.parts cs).1 ∧
      (run (fun r c => c.apply r) r cs).2.parts = (run (fun t c => c.applyParts t) r.parts cs).2 := by
  induction cs generalizing r with
  | nil => exact ⟨rfl, rfl⟩
  | cons c cs ih =>
    obtain ⟨replies, parts⟩ := ih (c.apply r).2
    simp only [run, ← apply_parts]
    exact ⟨congrArg _ replies, parts⟩

/-- The replies of a sequence of calls on an empty registry and the registry after them. -/
def history (cs : List RegistryCall) : List RegistryReply × Registry :=
  run (fun r c => c.apply r) .empty cs

/-- The same calls on an empty table. -/
def tableHistory (cs : List RegistryCall) : List RegistryReply × KeyedTable :=
  run (fun t c => c.applyParts t) .empty cs

/-- Every sequence of calls gives the same replies, keys, entries and look-ups on a registry as on keys
beside a table. The keys are the nodes with a collection in the table, each once, so that the entries have
all of these keys and no key is passed over. The next call returns the collection in the table; a
collection that is replaced, changed or marked keeps its place, a new one goes to the end, and so does one
that has been taken out and is registered again. -/
theorem history_inStep (cs : List RegistryCall) :
    let r := (history cs).2
    let t := (tableHistory cs).2
    (history cs).1 = (tableHistory cs).1 ∧ r.keys = t.keys ∧ r.entries = t.entries ∧
      (∀ k, r.get? k = t.table k) ∧ t.keys.Nodup ∧ (∀ k, k ∈ t.keys ↔ (t.table k).isSome = true) ∧
      t.entries.map Prod.fst = t.keys ∧ r.size = t.entries.length ∧
      ∀ k c change, (r.insert k c).1 = t.table k ∧ (r.erase k).1 = t.table k ∧
        (r.modify k change).1 = t.table k ∧ (r.markWritten k).1 = (t.table k).isSome ∧
        (r.insert k c).2.keys = (if k ∈ t.keys then t.keys else t.keys ++ [k]) ∧
        (r.modify k change).2.keys = t.keys ∧ (r.markWritten k).2.keys = t.keys ∧
        (r.erase k).2.keys = t.keys.filter (· ≠ k) ∧
        ((r.erase k).2.insert k c).2.keys = t.keys.filter (· ≠ k) ++ [k] := by
  intro r t
  obtain ⟨replies, parts⟩ := run_parts .empty cs
  have parts : t = r.parts := parts.symm
  have entries : t.entries = r.entries := parts ▸ r.entries_parts
  refine ⟨replies, ?_⟩
  rw [entries, parts]
  refine ⟨rfl, rfl, fun _ => rfl, r.nodup_keys, fun _ => Registry.mem_keys, rfl, rfl, ?_⟩
  intro k c change
  refine ⟨rfl, rfl, r.fst_modify k change, ?_, ?_, r.keys_modify k change, r.keys_markWritten k,
    r.keys_erase k, r.keys_insert_erase k c⟩
  · rw [r.markWritten_eq_modify, r.fst_modify]
    rfl
  · rw [r.keys_insert, Registry.parts]
    simp only [Registry.mem_keys]

end RegistryCall
end TripleStore
