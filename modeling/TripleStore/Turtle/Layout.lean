import TripleStore.Transfer
import TripleStore.Turtle.Document
import TripleStore.Turtle.Settled

/-! # Laying out and writing a graph

The document for a graph. Triples that no collection claims are grouped by subject; collections are
laid out at the place where their key is the object, or, for a blank node without triples of its own,
the subject. The registry remembers which collections have been written. The lines of the document are
sent to a sink; a malformed list is noticed before anything is sent. -/
namespace TripleStore.Turtle

/-- Applies a function to the elements of a list from left to right and threads a state through. -/
def thread {α β σ : Type} (f : α → σ → β × σ) : List α → σ → List β × σ
  | [], s => ([], s)
  | a :: as, s =>
    let (b, s) := f a s
    let (bs, s) := thread f as s
    (b :: bs, s)

/-- The triples of one subject with equal predicates together, in the order in which the predicates
first occur. -/
def groupByPredicate (ts : List Triple) : List Triple :=
  (ts.map Triple.predicate).eraseDups.flatMap fun p => ts.filter (·.predicate = p)

/-- The properties that some triples give to their subject. `object` lays out an object. -/
def layProperties (object : Node → Registry → Tree × Registry) (ts : List Triple) (r : Registry) :
    List (Node × Tree) × Registry :=
  thread (fun t r => let (o, r) := object t.object r; ((t.predicate, o), r)) (groupByPredicate ts) r

/-- The cells of a list with their items, given by the `rdf:first` triples of the cells. -/
def layCells (object : Node → Registry → Tree × Registry) (firsts : List Triple) (r : Registry) :
    List (Node × Tree) × Registry :=
  thread (fun t r => let (o, r) := object t.object r; ((t.subject, o), r)) firsts r

/-- An object. The key of a collection that has not been written becomes the collection. `depth` bounds
the nesting: every level of it writes a further collection. -/
def layObject : Nat → Node → Registry → Tree × Registry
  | 0, n, r => (.term n, r)
  | depth + 1, n, r =>
    match r.get? n with
    | none => (.term n, r)
    | some c =>
      if c.written then (.term n, r)
      else
        let r := (r.markWritten n).2
        match c.form with
        | .list =>
          let (cells, r) := layCells (layObject depth) c.triples r
          (.list cells, r)
        | .brackets =>
          if c.isEmpty then (.anonymous n, r)
          else
            let (properties, r) := layProperties (layObject depth) c.triples r
            (.brackets n properties, r)

/-- A subject. A blank node without triples of its own, which has not been written, needs no name. -/
def laySubject (n : Node) (r : Registry) : Subject × Registry :=
  match r.get? n with
  | none => (.named n, r)
  | some c =>
    if c.form = .brackets && c.isEmpty && !c.written then (.anonymous n, (r.markWritten n).2)
    else (.named n, r)

/-- The triples of a graph that are not claimed. -/
def unclaimed (g : Graph) (claimed : List Triple) : List Triple :=
  g.toList.filter (!claimed.contains ·)

def layBlock (g : Graph) (claimed : List Triple) (subject : Node) (r : Registry) : Block × Registry :=
  let (s, r) := laySubject subject r
  let ts := (g.withSubject subject).filter (!claimed.contains ·)
  let (properties, r) := layProperties (layObject r.size) ts r
  (.grouped s properties, r)

/-- The blocks of all subjects of unclaimed triples in the order of their first triple, and which
collections have been written in them. -/
def laySubjects (g : Graph) (r : Registry) : List Block × Registry :=
  let claimed := r.claims
  thread (layBlock g claimed) ((unclaimed g claimed).map Triple.subject).eraseDups r

/-- The claimed triples of the collections that have not been written. -/
def layRemaining (r : Registry) : List Block :=
  (r.entries.filter fun e => !e.2.written).flatMap fun e => e.2.claims.map .single

def collectionsFor (level : Level) (g : Graph) : Except ListError Registry :=
  if level.collects then (g.collections .all).map fun a => settle g a.registry else .ok .empty

def layBlocks (level : Level) (g : Graph) (r : Registry) : List Block :=
  if level.groups then
    let (blocks, r) := laySubjects g r
    blocks ++ layRemaining r
  else g.toList.map .single ++ layRemaining r

def layOut (o : Options) (g : Graph) : Except ListError Document :=
  (collectionsFor o.level g).map fun r =>
    { prefixes := o.prefixes.entries
      hasTriples := !g.isEmpty
      blocks := layBlocks o.level g r }

/-! ### Writing -/

inductive WriteError
  | sinkFull
  | malformedList (error : ListError)
  deriving DecidableEq

def WriteError.message : WriteError → String
  | sinkFull => "sink is full"
  | malformedList e => e.message

def WriteError.kind : WriteError → FailureKind
  | sinkFull => .other
  | malformedList _ => .invalidData

def write (o : Options) (g : Graph) (sink : Sink) : Except WriteError Unit × Sink :=
  match layOut o g with
  | .error e => (.error (.malformedList e), sink)
  | .ok d =>
    match sink.sendAll (d.lines o) with
    | (true, sink) => (.ok (), sink)
    | (false, sink) => (.error .sinkFull, sink)

end TripleStore.Turtle
