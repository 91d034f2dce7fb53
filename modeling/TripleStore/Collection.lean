import TripleStore.Triple

/-! # Collections

A blank node that may be written without its label: as a list `( … )` or between brackets `[ … ]`. The
triples of a list are the `rdf:first` triples of its cells in list order; the triples of brackets are
the ones written between them. Writing a collection also accounts for the `rdf:rest` triples of its
cells: these and its own triples are its claims. -/
namespace TripleStore

namespace Collection

inductive Form
  | brackets
  | list
  deriving DecidableEq

end Collection

/-- A collection and whether it has been written. -/
structure Collection where
  form : Collection.Form
  triples : List Triple
  written : Bool := false
  deriving DecidableEq

namespace Collection

/-- What is written between brackets. -/
def brackets (ts : List Triple) : Collection := { form := .brackets, triples := ts }

/-- A list, given by the `rdf:first` triples of its cells. -/
def list (firsts : List Triple) : Collection := { form := .list, triples := firsts }

def size (c : Collection) : Nat := c.triples.length

def isEmpty (c : Collection) : Bool := c.triples.isEmpty

/-- The objects of the triples; for a list, its items. -/
def items (c : Collection) : List Node := c.triples.map Triple.object

/-- Each `rdf:first` triple followed by the `rdf:rest` triple that links its cell to the next one, or
to the empty list. -/
def listClaims : List Triple → List Triple
  | [] => []
  | t :: ts =>
    let next := match ts with
      | [] => Node.rdfNil
      | t' :: _ => t'.subject
    t :: ⟨t.subject, Node.rdfRest, next⟩ :: listClaims ts

/-- The triples that are written as part of the collection. -/
def claims (c : Collection) : List Triple :=
  match c.form with
  | .brackets => c.triples
  | .list => listClaims c.triples

end Collection
end TripleStore
