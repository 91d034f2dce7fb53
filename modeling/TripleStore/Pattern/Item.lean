import TripleStore.Triple

/-! # Pattern items

What may stand in a position of a triple pattern: a node that must match exactly, a named variable,
or a placeholder for a blank node. Variables and placeholders bind the node that they match under
their binding name; the binding name of a placeholder begins with `_:`. -/
namespace TripleStore

inductive Item
  | fixed (node : Node)
  | var (name : String)
  | placeholder (name : String)
  deriving DecidableEq

namespace Item

/-- The text after a leading marker, if the text begins with the marker. -/
def dropMarker? (marker : String) (s : String) : Option String :=
  if marker.toList.isPrefixOf s.toList then
    some (String.ofList (s.toList.drop marker.length))
  else none

/-- The variable with a given name, which may be written with a leading `?` or `$`. -/
def named (s : String) : Item :=
  .var (((dropMarker? "?" s).or (dropMarker? "$" s)).getD s)

/-- The placeholder with a given label, which may be written with a leading `_:`. -/
def anonymous (s : String) : Item := .placeholder ("_:" ++ (dropMarker? "_:" s).getD s)

/-- The item for a node in a query: variables and blank nodes match any node. -/
def ofNode : Node → Item
  | .var n => named n
  | .blank l => anonymous l
  | n => .fixed n

def node? : Item → Option Node
  | fixed n => some n
  | _ => none

/-- The name under which the item binds a node. -/
def binding? : Item → Option String
  | fixed _ => none
  | var n => some n
  | placeholder n => some n

def isFixed : Item → Bool
  | fixed _ => true
  | _ => false

def isVariable : Item → Bool
  | var _ => true
  | _ => false

def isPlaceholder : Item → Bool
  | placeholder _ => true
  | _ => false

/-- The item in query notation. -/
def text : Item → String
  | fixed n => n.canonical
  | var n => "?" ++ n
  | placeholder n => n

end Item
end TripleStore
