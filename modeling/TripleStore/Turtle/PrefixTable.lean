import TripleStore.Association
import TripleStore.Iri.Grammar

/-! # Prefix tables

A prefix table gives names to namespaces, in the order of registration. An IRI is abbreviated by the
longest namespace with which it begins, if the rest is a plain local name. -/
namespace TripleStore.Turtle

/-- Whether a character may stand inside prefix names and plain local names. -/
def isPlainChar (c : Char) : Bool := c.isAlphanum || c == '_' || c == '-'

/-- Whether a text may name a namespace: nothing, or a letter followed by plain characters. -/
def isPrefixName (s : String) : Bool :=
  match s.toList with
  | [] => true
  | c :: cs => c.isAlpha && cs.all isPlainChar

/-- Whether a text may stand behind the colon of a written name: nothing, or a letter, digit or
underscore followed by plain characters. -/
def isPlainLocal : List Char → Bool
  | [] => true
  | c :: cs => (c.isAlphanum || c == '_') && cs.all isPlainChar

inductive PrefixError
  | invalidName (name : String)
  | invalidIri (iri : String)
  deriving DecidableEq

/-- The text of an error; `iriError` gives the text of the IRI parser for an invalid IRI. -/
def PrefixError.message (e : PrefixError) (iriError : String → String := fun _ => "") : String :=
  match e with
  | invalidName n => "Invalid prefix name '" ++ n ++ "'"
  | invalidIri i => iriError i

/-- Namespaces by name, in the order of registration. -/
structure PrefixTable where
  entries : List (String × String)
  nodup : (entries.map Prod.fst).Nodup
  valid : ∀ e ∈ entries, isPrefixName e.1 = true ∧ Iri.isValid e.2 = true

namespace PrefixTable

def empty : PrefixTable := ⟨[], .nil, by simp⟩

theorem mem_put {k v : String} {es : List (String × String)} {e : String × String}
    (h : e ∈ Association.put k v es) : e = (k, v) ∨ e ∈ es := by
  induction es with
  | nil => simpa [Association.put] using h
  | cons head rest ih =>
    obtain ⟨i, w⟩ := head
    simp only [Association.put] at h
    split at h
    · exact (List.mem_cons.mp h).imp_right (List.mem_cons_of_mem _)
    · rcases List.mem_cons.mp h with h | h
      · exact .inr (by simp [h])
      · exact (ih h).imp_right (List.mem_cons_of_mem _)

/-- Names a namespace. A name that is registered already gets the new namespace and keeps its place.
The name is checked before the namespace. -/
def register (p : PrefixTable) (name iri : String) : Except PrefixError PrefixTable :=
  if hn : isPrefixName name = true then
    if hi : Iri.isValid iri = true then
      .ok {
        entries := Association.put name iri p.entries
        nodup := Association.nodup_keys_put name iri p.nodup
        valid := fun _ he => (mem_put he).elim (fun h => h ▸ ⟨hn, hi⟩) (p.valid _) }
    else .error (.invalidIri iri)
  else .error (.invalidName name)

def get? (p : PrefixTable) (name : String) : Option String := p.entries.lookup name

/-- What follows a namespace in an IRI, if the IRI begins with the namespace. -/
def localPart? (iri ns : String) : Option (List Char) :=
  if ns.toList.isPrefixOf iri.toList then some (iri.toList.drop ns.length) else none

/-- The ways of abbreviating an IRI: a name, the length of its namespace, and a plain local name. -/
def abbreviations (p : PrefixTable) (iri : String) : List (String × Nat × List Char) :=
  p.entries.filterMap fun e =>
    (localPart? iri e.2).bind fun rest =>
      if isPlainLocal rest then some (e.1, e.2.length, rest) else none

/-- The abbreviation with the longest namespace, the last one of equals. -/
def longest : List (String × Nat × List Char) → Option (String × Nat × List Char)
  | [] => none
  | a :: as =>
    match longest as with
    | none => some a
    | some b => if a.2.1 ≤ b.2.1 then some b else some a

/-- An IRI as a name, a colon and a local name. -/
def abbreviate? (p : PrefixTable) (iri : String) : Option String :=
  (longest (p.abbreviations iri)).map fun a => a.1 ++ ":" ++ String.ofList a.2.2

end PrefixTable
end TripleStore.Turtle
