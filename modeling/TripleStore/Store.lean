import TripleStore.Collection.Analysis
import TripleStore.Evaluation
import TripleStore.Loading
import TripleStore.Turtle.Layout

/-! # Stores

A workspace holds graphs. A store is a handle on one of them, together with evaluation options; copies
of a store share the graph. The workspace also has the labels for fresh blank nodes, and counts the
nodes that have been drawn. -/
namespace TripleStore

/-- A handle on a graph of a workspace. -/
structure Store where
  graph : Nat
  options : EvaluationOptions
  deriving DecidableEq

/-- Graphs that stores refer to by number. -/
structure Workspace where
  graphs : List Graph := []
  labels : LabelSupply := .ofStem "fresh"
  drawn : Nat := 0

namespace Workspace

def graphOf (w : Workspace) (s : Store) : Graph := w.graphs.getD s.graph (.empty s.options.pairIndexes)

/-- Replaces the graph of a store, which its copies see, too. -/
def setGraph (w : Workspace) (s : Store) (g : Graph) : Workspace :=
  { w with graphs := w.graphs.set s.graph g }

/-- A store with a new empty graph. Its pair indexes are kept only if the options use them. -/
def newStore (w : Workspace) (options : EvaluationOptions) : Store × Workspace :=
  (⟨w.graphs.length, options⟩, { w with graphs := w.graphs ++ [.empty options.pairIndexes] })

def insert (w : Workspace) (s : Store) (t : Triple) : Bool × Workspace :=
  let (new, g) := (w.graphOf s).insert t
  (new, w.setGraph s g)

def extend (w : Workspace) (s : Store) (ts : List Triple) : Nat × Workspace :=
  let (n, g) := (w.graphOf s).extend ts
  (n, w.setGraph s g)

def erase (w : Workspace) (s : Store) (t : Triple) : Bool × Workspace :=
  let (there, g) := (w.graphOf s).erase t
  (there, w.setGraph s g)

/-- Reads a source with a parser and adds its triples, with fresh blank nodes, to the graph of a store.
After an error everything is as before. -/
def loadWith (parse : Parser) (w : Workspace) (s : Store) (source : Source) (base : Option String) :
    Except LoadError Nat × Workspace :=
  match source.triples parse base with
  | .error e => (.error e, w)
  | .ok ts =>
    let (n, w') := w.extend s (freshTriples w.labels w.drawn ts)
    (.ok n, { w' with drawn := w.drawn + (Triple.blankNodes ts).length })

def load (w : Workspace) (s : Store) (source : Source) (base : Option String) :
    Except LoadError Nat × Workspace :=
  w.loadWith Source.turtle s source base

def pattern (s : Store) (a b c : Item) : Except PatternError Pattern := Pattern.build s.options a b c

def evaluate (w : Workspace) (s : Store) (p : Pattern) (input : Solutions) : Solutions :=
  p.evaluate { graph := w.graphOf s, input, options := s.options }

def collections (w : Workspace) (s : Store) (mode : SearchMode) : Except ListError Analysis :=
  (w.graphOf s).collections mode

def dump (w : Workspace) (s : Store) (o : Turtle.Options) (sink : Sink) :
    Except Turtle.WriteError Unit × Sink :=
  Turtle.write o (w.graphOf s) sink

def summary (w : Workspace) (s : Store) : String :=
  "Store \x7b graph: " ++ (w.graphOf s).summary ++ ", options: " ++ s.options.summary ++ " \x7d"

end Workspace
end TripleStore
