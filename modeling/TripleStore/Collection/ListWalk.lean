import TripleStore.Collection
import TripleStore.Graph.Lookup

/-! # Walking lists

A list is found from its last cell by walking against the `rdf:rest` triples to the first cell. The
walk gives up where the chain is no list of blank cells with one item each; a cell with several items
is an error. -/
namespace TripleStore

inductive ListError
  /-- A list cell has several `rdf:first` triples. -/
  | multipleFirsts (cell : Node)
  deriving DecidableEq

def ListError.message : ListError → String
  | multipleFirsts n => "The list node " ++ n.canonical ++ " has multiple rdf:first triples"

/-- The outcome of a walk: a list, no list, or an error. -/
abbrev WalkResult := Except ListError (Option (List Triple))

/-- Walks on from a cell. `left` holds the nodes that the walk may still visit and `found` the
`rdf:first` triples of the cells behind. A node is visited once. -/
def walkFrom (g : Graph) (left : List Node) (cell : Node) (found : List Triple) : WalkResult :=
  if _ : cell ∈ left then
    match g.withSubjectPredicate cell .rdfFirst with
    | [] => .ok none
    | _ :: _ :: _ => .error (.multipleFirsts cell)
    | [first] =>
      if cell.isBlank then
        match g.withPredicateObject .rdfRest cell with
        | [] => .ok (some (first :: found))
        | [previous] => walkFrom g (left.erase cell) previous.subject (first :: found)
        | _ => .ok none
      else .ok none
  else .ok none
termination_by left.length
decreasing_by
  have h : cell ∈ left := by assumption
  rw [List.length_erase_of_mem h]
  have := List.length_pos_of_mem h
  omega

/-- The `rdf:first` triples of the list that ends in a given cell, in list order. Only cells with an
item can belong to a list, so the walk is confined to these. -/
def walkList (g : Graph) (tail : Node) : WalkResult :=
  if tail.isBlank then
    walkFrom g ((g.withPredicate .rdfFirst).map Triple.subject).eraseDups tail []
  else .ok none

end TripleStore
