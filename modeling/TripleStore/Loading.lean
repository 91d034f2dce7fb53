import TripleStore.Graph
import TripleStore.LabelSupply
import TripleStore.Transfer
import TripleStore.Turtle.Encoding
import TripleStore.Turtle.Reader

/-! # Loading documents

A document is read as a whole before anything is added to a graph. Its blank nodes are replaced by
fresh ones, the same node always by the same one, so that documents never share blank nodes with the
graph or with each other. -/
namespace TripleStore

inductive LoadError
  | invalidBase (iri : String)
  | sourceBroken
  | malformed
  deriving DecidableEq

/-- The text of an error; `iriError` gives the text of the IRI parser for an invalid IRI, and `syntaxError`
is that of the parser of documents. -/
def LoadError.message (e : LoadError) (iriError : String → String := fun _ => "")
    (syntaxError : String := "") : String :=
  match e with
  | invalidBase i => "Invalid base IRI '" ++ i ++ "': " ++ iriError i
  | sourceBroken => "source is broken"
  | malformed => syntaxError

def LoadError.kind : LoadError → FailureKind
  | invalidBase _ => .invalidInput
  | sourceBroken => .other
  | malformed => .invalidData

/-- What a parser makes of a source, given a base IRI: item after item, a triple or the reason why there
is none. -/
abbrev Parser := Source → Option String → List (Except LoadError Triple)

/-- The items of a Turtle document. What stands before an error is not looked at, so a document with an
error has no other item. -/
def Source.turtle : Parser := fun source base =>
  if source.broken then [.error .sourceBroken]
  else match (Turtle.text? source.bytes).bind (Turtle.read? .narrow base) with
    | none => [.error .malformed]
    | some ts => ts.map .ok

/-- The triples of a source, unless the base IRI is invalid or one of the items is an error. -/
def Source.triples (source : Source) (parse : Parser) (base : Option String) :
    Except LoadError (List Triple) :=
  match base.filter fun b => !Iri.isValid b with
  | some b => .error (.invalidBase b)
  | none => (parse source base).mapM id

/-- The fresh blank node with the `n`-th label of a supply. -/
def freshNode (labels : LabelSupply) (n : Nat) : Node := .blank (labels.label n)

/-- Replaces the listed blank nodes by fresh ones from the `drawn`-th on. -/
def freshening (labels : LabelSupply) (drawn : Nat) (blanks : List Node) (n : Node) : Node :=
  match blanks.idxOf? n with
  | some i => freshNode labels (drawn + i)
  | none => n

/-- The triples of a document with fresh blank nodes. -/
def freshTriples (labels : LabelSupply) (drawn : Nat) (ts : List Triple) : List Triple :=
  ts.map (Triple.rename (freshening labels drawn (Triple.blankNodes ts)))

end TripleStore
