import TripleStore.Iri.Grammar
import TripleStore.Literal
import TripleStore.Name

/-! # Nodes

The nodes of graphs and of triple patterns: IRIs, blank nodes, literals and variables. Nodes are
compared by value. Their order goes by kind and then by canonical text. -/
namespace TripleStore

inductive Node
  | iri (value : String)
  | blank (label : String)
  | literal (value : Literal)
  | var (name : String)
  deriving DecidableEq

namespace Node

def ofIri? (s : String) : Option Node := if Iri.isValid s then some (.iri s) else none

def ofBlankLabel? (s : String) : Option Node :=
  if Name.isBlankLabel s then some (.blank s) else none

def ofVariableName? (s : String) : Option Node :=
  if Name.isVariableName s then some (.var s) else none

def string (v : String) : Node := .literal (.simple v)

def typed (v datatype : String) : Node := .literal (.ofDatatype v datatype)

/-- A string with a language tag in any mixture of cases. -/
def tagged? (v tag : String) : Option Node :=
  (LanguageTag.parse? tag).map fun t => .literal (.tagged v t)

def isIri : Node → Bool
  | iri _ => true
  | _ => false

def isBlank : Node → Bool
  | blank _ => true
  | _ => false

def isLiteral : Node → Bool
  | literal _ => true
  | _ => false

def isVar : Node → Bool
  | var _ => true
  | _ => false

/-- The node in N-Triples form; a variable is written with a question mark. -/
def canonical : Node → String
  | iri v => "<" ++ v ++ ">"
  | blank l => "_:" ++ l
  | literal l => l.canonical
  | var n => "?" ++ n

instance : ToString Node := ⟨canonical⟩
instance : Hashable Node := ⟨fun n => hash n.canonical⟩

/-- The place of a kind of nodes in the order of nodes. -/
def rank : Node → Nat
  | blank _ => 0
  | iri _ => 1
  | literal _ => 2
  | var _ => 3

/-- Blank nodes come before IRIs, these before literals, these before variables; within a kind the
canonical texts decide. -/
def compare (a b : Node) : Ordering :=
  (Ord.compare a.rank b.rank).then (Ord.compare a.canonical b.canonical)

instance : Ord Node := ⟨compare⟩

def rdfType : Node := .iri Vocabulary.rdfType
def rdfFirst : Node := .iri Vocabulary.rdfFirst
def rdfRest : Node := .iri Vocabulary.rdfRest
def rdfNil : Node := .iri Vocabulary.rdfNil

end Node
end TripleStore
