import TripleStore.Node
import TripleStore.Text.NameMap

/-! # Solutions

A solution binds names to nodes. What flows between patterns is a sequence of them: nothing, the single
empty solution, or a table with declared columns and rows. A row need not bind every column, and rows may
repeat. -/
namespace TripleStore

abbrev Solution := NameMap Node

namespace Solution

/-- A binding as it is shown: the name of a placeholder stands as it is, the name of a variable gets a
question mark. -/
def bindingText (b : String × Node) : String :=
  (if "_:".toList.isPrefixOf b.1.toList then b.1 else "?" ++ b.1) ++ " = " ++ b.2.canonical

/-- The bindings between braces in the order of their names. -/
def text (s : Solution) : String :=
  "\x7b" ++ ", ".intercalate (s.bindings.map bindingText) ++ "\x7d"

end Solution

inductive Solutions
  /-- No solution at all. -/
  | null
  /-- One solution, which binds nothing. -/
  | identity
  /-- Rows over declared columns. -/
  | table (columns : NameSet) (rows : List Solution)
  deriving DecidableEq

namespace Solutions

/-- A table with columns and without rows. -/
def withColumns (names : List String) : Solutions := .table (NameSet.ofNames names) []

/-- Declares the names that a row binds. -/
def declare (columns : NameSet) (row : Solution) : NameSet := row.names.foldl NameSet.add columns

/-- The table of some rows; its columns are the names that some row binds. -/
def ofRows (rows : List Solution) : Solutions := .table (rows.foldl declare NameMap.empty) rows

/-- Adds a row at the end and declares its names. The empty solution of `identity` stays a row. -/
def push (row : Solution) : Solutions → Solutions
  | null => ofRows [row]
  | identity => ofRows [NameMap.empty, row]
  | table columns rows => .table (declare columns row) (rows ++ [row])

def rows : Solutions → List Solution
  | null => []
  | identity => [NameMap.empty]
  | table _ rows => rows

def columns : Solutions → List String
  | null => []
  | identity => []
  | table columns _ => columns.names

def size (m : Solutions) : Nat := m.rows.length

def declares (m : Solutions) (name : String) : Bool :=
  match m with
  | table columns _ => columns.contains name
  | _ => false

/-- Whether a name is declared and every solution binds it. -/
def bindsEverywhere (m : Solutions) (name : String) : Bool :=
  m.declares name && m.rows.all fun row => row.contains name

def isNull (m : Solutions) : Bool := m.rows.isEmpty

/-- Whether there is just one solution and it binds nothing. -/
def isIdentity (m : Solutions) : Bool :=
  match m.rows with
  | [row] => row.bindings.isEmpty
  | _ => false

/-- Whether some solution binds a name to a node. -/
def hasValue (m : Solutions) (name : String) (value : Node) : Bool :=
  m.rows.any fun row => row.get? name = some value

/-- The nodes that the solutions bind to a name, each once, by first occurrence. -/
def distinctValues (m : Solutions) (name : String) : List Node :=
  (m.rows.filterMap fun row => row.get? name).eraseDups

/-- The pairs of nodes that the solutions bind to two names, each once, by first occurrence. -/
def distinctPairs (m : Solutions) (a b : String) : List (Node × Node) :=
  (m.rows.filterMap fun row =>
    match row.get? a, row.get? b with
    | some x, some y => some (x, y)
    | _, _ => none).eraseDups

/-- The values of some names in one solution, if it binds all of them. -/
def rowValues (names : List String) (row : Solution) : Option (List Node) := names.mapM row.get?

/-- The values of some names in the solutions that bind all of them, each row of values once, by first
occurrence. -/
def distinctRows (m : Solutions) (names : List String) : List (List Node) :=
  (m.rows.filterMap (rowValues names)).eraseDups

def text : Solutions → String
  | null => "Null"
  | identity => "Identity"
  | table _ rows => "\n".intercalate (rows.map Solution.text)

end Solutions
end TripleStore
