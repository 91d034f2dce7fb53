import TripleStore.Collection.ListWalk
import TripleStore.Collection.Registry

/-! # The analysis of collections

The phases that find the collections of a graph and the triples that they claim. First candidates are
registered: lists, then brackets. Then candidates are dropped that cannot be written as collections,
or that depend on themselves. Last, the remaining collections claim their triples, and brackets that
are still mentioned too often are revoked. -/
namespace TripleStore

inductive SearchMode
  | all
  | bracketsOnly
  | listsOnly
  deriving DecidableEq

def SearchMode.includesLists : SearchMode → Bool
  | bracketsOnly => false
  | _ => true

def SearchMode.includesBrackets : SearchMode → Bool
  | listsOnly => false
  | _ => true

/-- The state of an analysis: the registered collections and the claimed triples, each once. -/
structure Analysis where
  registry : Registry
  claimed : List Triple

namespace Analysis

def start : Analysis := ⟨.empty, []⟩

def isClaimed (a : Analysis) (t : Triple) : Bool := a.claimed.contains t

/-- Registers a list under its first cell, unless the cell is registered. -/
def addList (r : Registry) (firsts : List Triple) : Registry :=
  match firsts with
  | [] => r
  | first :: _ =>
    if r.contains first.subject then r else (r.insert first.subject (.list firsts)).2

/-- Registers the lists that end in the given cells. -/
def addLists (g : Graph) (r : Registry) : List Node → Except ListError Registry
  | [] => .ok r
  | tail :: tails =>
    match walkList g tail with
    | .error e => .error e
    | .ok none => addLists g r tails
    | .ok (some firsts) => addLists g (addList r firsts) tails

def tails (g : Graph) : List Node :=
  (g.withPredicateObject .rdfRest .rdfNil).map Triple.subject

def findLists (g : Graph) (a : Analysis) : Except ListError Analysis :=
  (addLists g a.registry (tails g)).map fun r => { a with registry := r }

/-- What is written between the brackets of a blank node. All triples that mention the node are
candidates, apart from those that make it a list cell. One candidate alone is the reference to the
node. If the node is the object of just one triple, that triple is the reference. -/
def bracketTriples (g : Graph) (n : Node) : List Triple :=
  let ts := (g.mentioning n).filter fun t => t.predicate ≠ .rdfFirst && t.predicate ≠ .rdfRest
  if ts.length ≤ 1 then []
  else if (g.withObject n).length = 1 then ts.filter (·.object ≠ n)
  else ts

/-- Registers brackets for the blank nodes that are not registered. -/
def findBrackets (g : Graph) (a : Analysis) : Analysis :=
  { a with
    registry := g.blankNodes.foldl
      (fun r n => if r.contains n then r else (r.insert n (.brackets (bracketTriples g n))).2)
      a.registry }

/-- Whether a candidate is kept. Brackets must not hold every triple that mentions their node. A list
of `n` cells is kept if its first cell is mentioned by one triple more than `3n - 1`. -/
def isEligible (g : Graph) (k : Node) (c : Collection) : Bool :=
  match c.form with
  | .brackets => c.isEmpty || c.size ≠ g.countMentions k
  | .list =>
    let expected := 3 * c.size - 1
    g.countMentions k = expected + 1

def dropIneligible (g : Graph) (a : Analysis) : Analysis :=
  { a with registry := a.registry.filter (isEligible g) }

/-- The keys among the items of a collection, other than its own. -/
def dependencies (r : Registry) (k : Node) (c : Collection) : List Node :=
  c.items.filter fun o => o.isBlank && o ≠ k && r.contains o

/-- The collections with dependencies and these, in the order of descending size; collections of equal
size keep their order. -/
def dependencyLists (r : Registry) : List (Node × List Node) :=
  ((r.entries.mergeSort fun a b => b.2.size ≤ a.2.size).map fun e =>
    (e.1, dependencies r e.1 e.2)).filter fun e => !e.2.isEmpty

/-- Extends each list of dependencies once, from left to right, by the current lists of its members.
`done` holds the lists that have been extended. -/
def extendLists (done : List (Node × List Node)) : List (Node × List Node) → List (Node × List Node)
  | [] => done
  | (k, ds) :: rest =>
    let extended := ds ++ ds.flatMap fun d => (List.lookup d (done ++ (k, ds) :: rest)).getD []
    extendLists (done ++ [(k, extended)]) rest

/-- The keys that stand in their own extended list of dependencies. -/
def cyclicKeys (r : Registry) : List Node :=
  ((extendLists [] (dependencyLists r)).filter fun e => e.2.contains e.1).map Prod.fst

/-- Drops the collections that are found to depend on themselves. -/
def dropCyclic (a : Analysis) : Analysis :=
  { a with registry := a.registry.without (cyclicKeys a.registry) }

/-- Claims the triples of all collections; without collections the claims stay as they are. -/
def claim (a : Analysis) : Analysis :=
  if a.registry.isEmpty then a else { a with claimed := a.registry.claims }

/-- Whether brackets are mentioned by more unclaimed triples than they hold, not counting one. -/
def isOverused (g : Graph) (claimed : List Triple) (k : Node) (c : Collection) : Bool :=
  c.form = .brackets && ((g.mentioning k).filter (!claimed.contains ·)).length > c.size + 1

/-- Revokes the brackets that are mentioned too often. If there are any, the remaining collections
claim their triples anew. -/
def revoke (g : Graph) (a : Analysis) : Analysis :=
  if a.registry.entries.any fun e => isOverused g a.claimed e.1 e.2 then
    let r := a.registry.filter fun k c => !isOverused g a.claimed k c
    ⟨r, r.claims⟩
  else a

def run (g : Graph) (mode : SearchMode) (a : Analysis) : Except ListError Analysis := do
  let a ← if mode.includesLists then findLists g a else .ok a
  let a := if mode.includesBrackets then findBrackets g a else a
  return revoke g (claim (dropCyclic (dropIneligible g a)))

end Analysis

def Graph.collections (g : Graph) (mode : SearchMode) : Except ListError Analysis :=
  Analysis.run g mode .start

end TripleStore
