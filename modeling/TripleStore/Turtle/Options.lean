import TripleStore.Turtle.PrefixTable

/-! # Writing options

How compactly a graph is written: the compression level and the prefix table. -/
namespace TripleStore.Turtle

/-- The compression level. Below zero every triple is a statement of its own. From zero on triples are
grouped by subject and predicate, from one on IRIs are abbreviated, above one collections are
used. -/
structure Level where
  value : Int
  deriving DecidableEq

namespace Level

def none : Level := ⟨-1⟩
def minimal : Level := ⟨0⟩
def default : Level := ⟨1⟩
def medium : Level := ⟨3⟩
def more : Level := ⟨5⟩
def high : Level := ⟨10⟩

instance : Ord Level := ⟨fun a b => Ord.compare a.value b.value⟩
instance : ToString Level := ⟨fun l => toString l.value⟩

def groups (l : Level) : Bool := minimal.value ≤ l.value

def abbreviates (l : Level) : Bool := default.value ≤ l.value

def collects (l : Level) : Bool := default.value < l.value

theorem groups_of_collects {l : Level} (h : l.collects = true) : l.groups = true := by
  have : (1 : Int) < l.value := of_decide_eq_true h
  exact decide_eq_true (show (0 : Int) ≤ l.value by omega)

end Level

structure Options where
  level : Level := .more
  prefixes : PrefixTable := .empty

def Options.register (o : Options) (name iri : String) : Except PrefixError Options :=
  (o.prefixes.register name iri).map fun p => { o with prefixes := p }

end TripleStore.Turtle
