import TripleStore.Pattern.Item
import TripleStore.Text.NameMap

/-! # Triple patterns

A pattern has an item in each position and knows whether pair indexes may be used for it. The index
for a pattern is chosen by the positions that hold fixed nodes; a position is repeated if an earlier
one binds the same name. The settings of an evaluation never change which solutions a pattern has, only
how they are found and how strictly candidates are checked. -/
namespace TripleStore

/-- How patterns are evaluated. -/
structure EvaluationOptions where
  /-- Whether an index by two positions may be chosen for a pattern. -/
  pairIndexes : Bool := true
  /-- Whether a candidate is accepted only if the incoming solutions bind its nodes. -/
  rigorous : Bool := false
  deriving DecidableEq

def EvaluationOptions.summary (o : EvaluationOptions) : String :=
  "EvaluationOptions \x7b full_triple_indexing: " ++ toString o.pairIndexes ++
    ", rigorous_evaluation: " ++ toString o.rigorous ++ " \x7d"

/-- The index in which the candidates of a pattern are looked up. -/
inductive IndexChoice
  | subject
  | predicate
  | object
  | subjectPredicate
  | subjectObject
  | predicateObject
  /-- Every position is fixed, so that one membership test decides. -/
  | membership
  /-- No position is fixed, so that the incoming solutions or a scan supply the candidates. -/
  | scan
  deriving DecidableEq

namespace IndexChoice

/-- The positions by which the index is keyed. -/
def positions : IndexChoice → List Position
  | subject => [.subject]
  | predicate => [.predicate]
  | object => [.object]
  | subjectPredicate => [.subject, .predicate]
  | subjectObject => [.subject, .object]
  | predicateObject => [.predicate, .object]
  | membership => Position.all
  | scan => []

def text : IndexChoice → String
  | subject => "Subject"
  | predicate => "Predicate"
  | object => "Object"
  | subjectPredicate => "SubjectPredicate"
  | subjectObject => "SubjectObject"
  | predicateObject => "PredicateObject"
  | membership => "NoVariables"
  | scan => "None"

/-- Chooses an index by which of subject, predicate and object are fixed. Without pair indexes a fixed
subject decides, then a fixed predicate. -/
def choose (pairs : Bool) : Bool → Bool → Bool → IndexChoice
  | true, true, true => membership
  | true, p, o =>
    if pairs && p then subjectPredicate else if pairs && o then subjectObject else subject
  | false, true, o => if pairs && o then predicateObject else predicate
  | false, false, true => object
  | false, false, false => scan

end IndexChoice

structure Pattern where
  subject : Item
  predicate : Item
  object : Item
  /-- Whether an index by two positions may be chosen. -/
  pairIndexes : Bool
  predicate_not_placeholder : predicate.isPlaceholder = false
  deriving DecidableEq

inductive PatternError
  /-- A placeholder stands in the predicate position. -/
  | placeholderPredicate (name : String)
  deriving DecidableEq

def PatternError.message : PatternError → String
  | placeholderPredicate n =>
    "A blank node placeholder (" ++ n ++ ") cannot be used in the predicate position"

namespace Pattern

/-- The pattern of three items; a placeholder is refused as predicate. -/
def build (options : EvaluationOptions) (s p o : Item) : Except PatternError Pattern :=
  match p with
  | .placeholder n => .error (.placeholderPredicate n)
  | .fixed n => .ok ⟨s, .fixed n, o, options.pairIndexes, rfl⟩
  | .var n => .ok ⟨s, .var n, o, options.pairIndexes, rfl⟩

def item (p : Pattern) : Position → Item
  | .subject => p.subject
  | .predicate => p.predicate
  | .object => p.object

def items (p : Pattern) : List Item := [p.subject, p.predicate, p.object]

def nameSet (p : Pattern) : NameSet := NameSet.ofNames (p.items.filterMap Item.binding?)

/-- The binding names of the pattern, each once and in ascending order. -/
def names (p : Pattern) : List String := p.nameSet.names

def firstPosition? (p : Pattern) (name : String) : Option Position :=
  Position.all.find? fun pos => (p.item pos).binding? = some name

def isRepeated (p : Pattern) (pos : Position) : Bool :=
  match (p.item pos).binding? with
  | none => false
  | some name => p.firstPosition? name ≠ some pos

def index (p : Pattern) : IndexChoice :=
  .choose p.pairIndexes p.subject.isFixed p.predicate.isFixed p.object.isFixed

def isGround (p : Pattern) : Bool := p.names.isEmpty

def hasNoNamedVariable (p : Pattern) : Bool := !p.items.any Item.isVariable

/-- Whether the pattern consists of three different named variables, so that every triple matches. -/
def acceptsEverything (p : Pattern) : Bool :=
  p.items.all Item.isVariable && p.names.length = 3

/-- The pattern in query notation. -/
def text (p : Pattern) : String := p.subject.text ++ " " ++ p.predicate.text ++ " " ++ p.object.text

end Pattern
end TripleStore
