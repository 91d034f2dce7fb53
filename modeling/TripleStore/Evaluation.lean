import TripleStore.Graph.Lookup
import TripleStore.Pattern
import TripleStore.Solutions

/-! # Evaluation of patterns

A pattern is evaluated against a graph and the incoming solutions. The fixed nodes of the chosen index
and the nodes that the incoming solutions bind select candidate triples; each candidate that matches
the pattern gives one solution. -/
namespace TripleStore

/-- What a pattern is evaluated against. -/
structure Context where
  graph : Graph
  input : Solutions := .identity
  options : EvaluationOptions := {}

def Context.summary (ctx : Context) : String :=
  "EvaluationContext \x7b graph_len: " ++ toString ctx.graph.size ++ ", input_len: " ++
    toString ctx.input.size ++ ", options: " ++ ctx.options.summary ++ " \x7d"

namespace Pattern

/-- The binding name of a position, if every incoming solution binds it. -/
def suppliedName? (p : Pattern) (ctx : Context) (pos : Position) : Option String :=
  (p.item pos).binding?.filter ctx.input.bindsEverywhere

/-- The node that the chosen index is asked for in a position. -/
def keyNode? (p : Pattern) (pos : Position) : Option Node :=
  if pos ∈ p.index.positions then (p.item pos).node? else none

/-- The positions outside the chosen index for which the incoming solutions supply nodes, with their
names. -/
def probes (p : Pattern) (ctx : Context) : List (Position × String) :=
  Position.all.filterMap fun pos =>
    if pos ∈ p.index.positions then none else (p.suppliedName? ctx pos).map fun name => (pos, name)

/-- The triples with the key nodes of the pattern and with the values of one row of probes. -/
def probe (p : Pattern) (g : Graph) (values : List (Position × Node)) : List Triple :=
  let node pos := (values.lookup pos).or (p.keyNode? pos)
  g.matching (node .subject) (node .predicate) (node .object)

/-- The triples that may match. If the incoming solutions supply nodes for some positions, the graph is
probed once for each distinct row of these nodes. -/
def candidates (p : Pattern) (ctx : Context) : List Triple :=
  match p.probes ctx with
  | [] => p.probe ctx.graph []
  | probes =>
    (ctx.input.distinctRows (probes.map Prod.snd)).flatMap fun row =>
      p.probe ctx.graph ((probes.map Prod.fst).zip row)

/-- Whether a node may be bound to a name. In rigorous evaluation it has to be one of the nodes that
the incoming solutions bind to the name, if all of them bind it. -/
def allows (ctx : Context) (name : String) (n : Node) : Bool :=
  !(ctx.options.rigorous && ctx.input.bindsEverywhere name) ||
    (ctx.input.distinctValues name).contains n

/-- Whether the node of a triple in one position fits the pattern: a fixed node has to be the same, a
repeated name needs the node of its first position. -/
def acceptsAt (p : Pattern) (ctx : Context) (t : Triple) (pos : Position) : Bool :=
  match p.item pos with
  | .fixed n => n = t.nodeAt pos
  | .var name | .placeholder name =>
    if p.isRepeated pos then
      (p.firstPosition? name).any fun first => t.nodeAt first = t.nodeAt pos
    else allows ctx name (t.nodeAt pos)

def accepts (p : Pattern) (ctx : Context) (t : Triple) : Bool :=
  Position.all.all (p.acceptsAt ctx t)

/-- Binds the name of one position to the node that a triple has there, unless an earlier position has
bound it. -/
def bindAt (p : Pattern) (t : Triple) (row : Solution) (pos : Position) : Solution :=
  match (p.item pos).binding? with
  | some name => if p.isRepeated pos then row else row.insert name (t.nodeAt pos)
  | none => row

/-- Binds the names of the pattern to the nodes of a triple; a repeated name is bound by its first
position. -/
def solution (p : Pattern) (t : Triple) : Solution := Position.all.foldl (p.bindAt t) NameMap.empty

/-- The solutions of the pattern. A pattern without names has the identity or nothing as its result;
any other pattern has one solution for each accepted candidate. -/
def evaluate (p : Pattern) (ctx : Context) : Solutions :=
  match p.subject, p.predicate, p.object with
  | .fixed s, .fixed q, .fixed o => if ctx.graph.contains ⟨s, q, o⟩ then .identity else .null
  | _, _, _ =>
    (((p.candidates ctx).filter (p.accepts ctx)).map p.solution).foldl (fun m row => m.push row)
      (.withColumns p.names)

end Pattern
end TripleStore
