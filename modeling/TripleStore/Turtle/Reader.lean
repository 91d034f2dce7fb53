import TripleStore.Association
import TripleStore.Iri.Resolution
import TripleStore.Triple
import TripleStore.Turtle.Lexer

/-! # Reading documents

A reader takes the tokens of a document one by one and collects the triples of its statements. A triple
is complete when its object is: for a blank node with properties when its bracket closes, for a list
when its first item begins, for a string when the next token shows what it is. The triples that one
token completes are delivered last first. -/
namespace TripleStore.Turtle

/-- Where an object goes: into a property of a subject, or into a list cell as its item. -/
inductive Place
  | property (subject predicate : Node)
  | item (cell : Node)
  deriving DecidableEq

def Place.triple (object : Node) : Place → Triple
  | property s p => ⟨s, p, object⟩
  | item c => ⟨c, .rdfFirst, object⟩

/-- A construct that has been opened and encloses what is read next. -/
inductive Frame
  /-- Brackets as an object for `outer`. -/
  | brackets (outer : Place)
  /-- Brackets at the beginning of a statement. -/
  | subjectBrackets
  /-- A list as an object for `outer`. -/
  | list (outer : Place)
  /-- A list at the beginning of a statement. -/
  | subjectList (head : Node)
  deriving DecidableEq

inductive Expect
  | statement
  /-- The name of a namespace; `dot` tells whether the directive ends with a dot. -/
  | declaredName (dot : Bool)
  | declaredIri (name : String) (dot : Bool)
  | baseIri (dot : Bool)
  | directiveEnd
  | inSubjectBrackets
  | inSubjectList
  | verb (subject : Node)
  /-- Behind a semicolon, where the properties may also end. -/
  | verbOrEnd (subject : Node)
  /-- Behind brackets at the beginning of a statement, which may end the statement. -/
  | verbOrDot (subject : Node)
  | object (place : Place)
  | inBrackets (place : Place)
  | inList (place : Place)
  | afterObject (place : Place)
  | afterString (value : String) (place : Place)
  | datatype (value : String) (place : Place)
  deriving DecidableEq

structure Reader where
  lexicon : Lexicon
  base : Option String
  namespaces : List (String × String) := []
  /-- How many blank nodes without a label have been met. -/
  anonymous : Nat := 0
  stack : List Frame := []
  expect : Expect := .statement
  /-- The triples that the present token has completed, last first. -/
  completed : List Triple := []
  /-- The delivered triples in order. -/
  triples : List Triple := []
  deriving DecidableEq

namespace Reader

/-- The blank node without a label that is met as the `n`-th. Its label cannot be written in a
document, so it differs from every labelled blank node. -/
def anonymousNode (n : Nat) : Node := .blank ("[" ++ toString n ++ "]")

def draw (r : Reader) : Node × Reader :=
  (anonymousNode r.anonymous, { r with anonymous := r.anonymous + 1 })

def complete (t : Triple) (r : Reader) : Reader := { r with completed := t :: r.completed }

/-- Completes the triple of an object, behind which the reader goes on. -/
def put (place : Place) (object : Node) (r : Reader) : Reader :=
  { r.complete (place.triple object) with expect := .afterObject place }

def await (e : Expect) (r : Reader) : Reader := { r with expect := e }

def enter (f : Frame) (r : Reader) : Reader := { r with stack := f :: r.stack }

/-- The IRI of a name in a namespace. It is checked if the name has a critical character, and if the
namespace has no path, so that the name could become part of the authority. -/
def nameIri? (ns localName : String) (critical : Bool) : Option String :=
  if critical || (Iri.split ns.toList).path.isEmpty then
    if Iri.isValid (ns ++ localName) then some (ns ++ localName) else none
  else some (ns ++ localName)

/-- The IRI that a token denotes: an IRI reference, or a name in a declared namespace. -/
def iri? (r : Reader) : Token → Option String
  | .iri reference => Iri.resolve? r.base reference
  | .name space localName critical =>
    (r.namespaces.lookup space).bind fun ns => nameIri? ns localName critical
  | _ => none

/-- A predicate, with which the properties of a subject go on. -/
def takeVerb (subject : Node) (t : Token) (r : Reader) : Option Reader :=
  if t = .word "a" then some (r.await (.object (.property subject .rdfType)))
  else (r.iri? t).map fun iri => r.await (.object (.property subject (.iri iri)))

def numberType : NumberForm → String
  | .integer => Vocabulary.xsdInteger
  | .decimal => Vocabulary.xsdDecimal
  | .double => Vocabulary.xsdDouble

/-- An object, or the beginning of one. -/
def takeObject (place : Place) (t : Token) (r : Reader) : Option Reader :=
  match t with
  | .iri _ | .name _ _ _ => (r.iri? t).map fun iri => r.put place (.iri iri)
  | .blank label => some (r.put place (.blank label))
  | .string value => some (r.await (.afterString value place))
  | .number form text => some (r.put place (.typed text (numberType form)))
  | .word w =>
    if w = "true" ∨ w = "false" then some (r.put place (.typed w Vocabulary.xsdBoolean)) else none
  | .symbol .openBracket => some (r.await (.inBrackets place))
  | .symbol .openList => some (r.await (.inList place))
  | _ => none

/-- The end of the properties of a subject, which is the end of the statement or of the enclosing
brackets. -/
def takeEnd (subject : Node) (t : Token) (r : Reader) : Option Reader :=
  match r.stack, t with
  | [], .symbol .dot => some (r.await .statement)
  | .brackets outer :: stack, .symbol .closeBracket => some ({ r with stack }.put outer subject)
  | .subjectBrackets :: stack, .symbol .closeBracket =>
    some ({ r with stack }.await (.verbOrDot subject))
  | _, _ => none

/-- What follows an object: a further object, property or item, or an end. -/
def takeAfterObject (place : Place) (t : Token) (r : Reader) : Option Reader :=
  match place with
  | .property subject _ =>
    match t with
    | .symbol .comma => some (r.await (.object place))
    | .symbol .semicolon => some (r.await (.verbOrEnd subject))
    | _ => r.takeEnd subject t
  | .item cell =>
    if t = .symbol .closeList then
      let r := r.complete ⟨cell, .rdfRest, .rdfNil⟩
      match r.stack with
      | .list outer :: stack => some ({ r with stack }.await (.afterObject outer))
      | .subjectList head :: stack => some ({ r with stack }.await (.verb head))
      | _ => none
    else
      let (next, r) := r.draw
      (r.complete ⟨cell, .rdfRest, next⟩).takeObject (.item next) t

def takeStatement (t : Token) (r : Reader) : Option Reader :=
  match t with
  | .tag "prefix" => some (r.await (.declaredName true))
  | .tag "base" => some (r.await (.baseIri true))
  | .word w =>
    if w.toLower = "prefix" then some (r.await (.declaredName false))
    else if w.toLower = "base" then some (r.await (.baseIri false))
    else none
  | .iri _ | .name _ _ _ => (r.iri? t).map fun iri => r.await (.verb (.iri iri))
  | .blank label => some (r.await (.verb (.blank label)))
  | .symbol .openBracket => some (r.await .inSubjectBrackets)
  | .symbol .openList => some (r.await .inSubjectList)
  | _ => none

def take (r : Reader) (t : Token) : Option Reader :=
  match r.expect with
  | .statement => r.takeStatement t
  | .declaredName dot =>
    match t with
    | .name space "" _ => some (r.await (.declaredIri space dot))
    | _ => none
  | .declaredIri name dot =>
    match t with
    | .iri reference => (Iri.resolve? r.base reference).map fun iri =>
      { r with namespaces := Association.put name iri r.namespaces }.await
        (if dot then .directiveEnd else .statement)
    | _ => none
  | .baseIri dot =>
    match t with
    | .iri reference => (Iri.resolve? r.base reference).map fun iri =>
      { r with base := some iri }.await (if dot then .directiveEnd else .statement)
    | _ => none
  | .directiveEnd => if t = .symbol .dot then some (r.await .statement) else none
  | .inSubjectBrackets =>
    let (node, r) := r.draw
    if t = .symbol .closeBracket then some (r.await (.verb node))
    else (r.enter .subjectBrackets).takeVerb node t
  | .inSubjectList =>
    if t = .symbol .closeList then some (r.await (.verb .rdfNil))
    else
      let (cell, r) := r.draw
      (r.enter (.subjectList cell)).takeObject (.item cell) t
  | .verb subject => r.takeVerb subject t
  | .verbOrEnd subject =>
    if t = .symbol .semicolon then some r
    else (r.takeVerb subject t).or (r.takeEnd subject t)
  | .verbOrDot subject =>
    if t = .symbol .dot then some (r.await .statement) else r.takeVerb subject t
  | .object place => r.takeObject place t
  | .inBrackets place =>
    let (node, r) := r.draw
    if t = .symbol .closeBracket then some (r.put place node)
    else (r.enter (.brackets place)).takeVerb node t
  | .inList place =>
    if t = .symbol .closeList then some (r.put place .rdfNil)
    else
      let (cell, r) := r.draw
      ((r.put place cell).enter (.list place)).takeObject (.item cell) t
  | .afterObject place => r.takeAfterObject place t
  | .afterString value place =>
    match t with
    | .tag text => (r.lexicon.tag? text).map fun tag => r.put place (.literal (.tagged value tag))
    | .symbol .datatype => some (r.await (.datatype value place))
    | _ => (r.put place (.string value)).takeAfterObject place t
  | .datatype value place => (r.iri? t).map fun iri => r.put place (.typed value iri)

/-- Delivers the triples that a token has completed. -/
def deliver (r : Reader) : Reader := { r with triples := r.triples ++ r.completed, completed := [] }

def run (r : Reader) : List Token → Option Reader
  | [] => some r
  | t :: ts => (r.take t).bind fun r => r.deliver.run ts

/-- The triples of a document whose tokens have been taken; a document ends between statements. -/
def finish? (r : Reader) : Option (List Triple) := if r.expect = .statement then some r.triples else none

end Reader

/-- The triples of a document in the order of their delivery; nothing if it is malformed. -/
def read? (lx : Lexicon) (base : Option String) (document : String) : Option (List Triple) :=
  (tokens? lx document).bind fun ts => (Reader.run { lexicon := lx, base } ts).bind Reader.finish?

end TripleStore.Turtle
