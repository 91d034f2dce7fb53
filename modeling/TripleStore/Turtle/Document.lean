import TripleStore.Turtle.Options
import TripleStore.Triple

/-! # Documents

A Turtle document as it is laid out: the named namespaces, then blocks of statements, in whose objects
collections stand inline. `Document.lines` is its text, line by line. -/
namespace TripleStore.Turtle

/-- An object of a statement. A blank node that is written without its label is kept beside what is
written for it. -/
inductive Tree
  /-- A node by its name. -/
  | term (node : Node)
  /-- A blank node without properties, `[]`. -/
  | anonymous (node : Node)
  /-- A list, `( … )`, as its cells with their items. -/
  | list (cells : List (Node × Tree))
  /-- A blank node with its properties, `[ … ]`. -/
  | brackets (node : Node) (properties : List (Node × Tree))

/-- The subject of a block, by its name or as `[]`. -/
inductive Subject
  | named (node : Node)
  | anonymous (node : Node)

inductive Block
  /-- One triple by the names of its nodes. -/
  | single (triple : Triple)
  /-- A subject with its properties. -/
  | grouped (subject : Subject) (properties : List (Node × Tree))

structure Document where
  prefixes : List (String × String)
  /-- Whether there are triples, which an empty line keeps apart from the prefixes. -/
  hasTriples : Bool
  blocks : List Block

/-- The text of a node: the abbreviation of an IRI, or the canonical text. -/
def termText (o : Options) (n : Node) : String :=
  if o.level.abbreviates then
    match n with
    | .iri v => (o.prefixes.abbreviate? v).getD n.canonical
    | _ => n.canonical
  else n.canonical

/-- The text of a predicate: `rdf:type` is written `a`. -/
def verbText (o : Options) (n : Node) : String :=
  if o.level.abbreviates && n = .rdfType then "a" else termText o n

mutual

def Tree.text (o : Options) : Tree → String
  | .term n => termText o n
  | .anonymous _ => "[]"
  | .list cells => "( " ++ Tree.itemsText o cells ++ " )"
  | .brackets _ properties => "[ " ++ Tree.propertiesText o " ; " none properties ++ " ]"

/-- The texts of the items of a list, separated by spaces. -/
def Tree.itemsText (o : Options) : List (Node × Tree) → String
  | [] => ""
  | [(_, t)] => t.text o
  | (_, t) :: cells => t.text o ++ " " ++ Tree.itemsText o cells

/-- The texts of properties. The predicate is not repeated when it is the one of the property before;
then a comma separates the objects. -/
def Tree.propertiesText (o : Options) (separator : String) (before : Option Node) :
    List (Node × Tree) → String
  | [] => ""
  | (p, t) :: rest =>
    (match before with
      | none => verbText o p ++ " "
      | some q => if p = q then ", " else separator ++ verbText o p ++ " ") ++
      t.text o ++ Tree.propertiesText o separator (some p) rest

end

def Block.text (o : Options) : Block → String
  | single t =>
    termText o t.subject ++ " " ++ verbText o t.predicate ++ " " ++ termText o t.object ++ " ."
  | grouped subject properties =>
    (match subject with
      | .anonymous _ => "[]"
      | .named n => termText o n) ++ " " ++ Tree.propertiesText o " ;\n    " none properties ++ " ."

/-- The declaration of a name for a namespace. -/
def declarationText (e : String × String) : String := "@prefix " ++ e.1 ++ ": <" ++ e.2 ++ "> ."

/-- The lines of a document, each with its line feed. -/
def Document.lines (o : Options) (d : Document) : List String :=
  (d.prefixes.map declarationText ++
    (if !d.prefixes.isEmpty && d.hasTriples then [""] else []) ++
    d.blocks.map (Block.text o)).map (· ++ "\n")

def Document.text (o : Options) (d : Document) : String := String.join (d.lines o)

/-- What stands in front of the blocks: the declarations, and an empty line if triples follow them. -/
def Document.heading (d : Document) : String :=
  String.join ((d.prefixes.map declarationText ++
    if !d.prefixes.isEmpty && d.hasTriples then [""] else []).map (· ++ "\n"))

/-- A document is its heading and the texts of its blocks, each with its line feed. -/
theorem Document.text_eq (o : Options) (d : Document) :
    d.text o = d.heading ++ String.join (d.blocks.map fun b => b.text o ++ "\n") := by
  rw [text, lines, List.map_append, String.join_append, List.map_map]
  rfl

end TripleStore.Turtle
