import Mathlib.Data.List.Flatten
import Mathlib.Data.List.Perm.Basic
import TripleStore.Proofs.Collection.Claims
import TripleStore.Turtle.Document

/-! # The content of documents

What a laid out document says, without its text: the triples of its blocks, the collections that stand
inline in them, and the nodes that are written by name. An object is either written by name or as an
inline collection with the object as its key. -/
namespace TripleStore.Turtle

/-- Induction over trees, with the induction hypothesis for every cell or property. -/
theorem Tree.induction {P : Tree → Prop} (term : ∀ n, P (.term n)) (anonymous : ∀ n, P (.anonymous n))
    (list : ∀ cells, (∀ e ∈ cells, P e.2) → P (.list cells))
    (brackets : ∀ n ps, (∀ e ∈ ps, P e.2) → P (.brackets n ps)) (t : Tree) : P t :=
  @Tree.rec P (fun es => ∀ e ∈ es, P e.2) (fun e => P e.2) term anonymous list brackets
    (fun _ h => absurd h List.not_mem_nil)
    (fun _ _ he hes _ h => (List.mem_cons.mp h).elim (fun e => e ▸ he) (hes _)) (fun _ _ h => h) t

/-- The node for which a tree stands. -/
def Tree.node : Tree → Node
  | .term n | .anonymous n | .brackets n _ => n
  | .list [] => .rdfNil
  | .list ((cell, _) :: _) => cell

/-- The triples between brackets. -/
def propertyTriples (subject : Node) (ps : List (Node × Tree)) : List Triple :=
  ps.map fun e => ⟨subject, e.1, e.2.node⟩

/-- The `rdf:first` triples of cells. -/
def firstTriples (cells : List (Node × Tree)) : List Triple :=
  cells.map fun e => ⟨e.1, .rdfFirst, e.2.node⟩

theorem firstTriples_cons (cell : Node) (t : Tree) (cells : List (Node × Tree)) :
    firstTriples ((cell, t) :: cells) = ⟨cell, .rdfFirst, t.node⟩ :: firstTriples cells := rfl

mutual

/-- The inline collections of a tree with their keys, in the order in which they begin. -/
def Tree.collections : Tree → List (Node × Collection)
  | .term _ => []
  | .anonymous n => [(n, .brackets [])]
  | .list cells => ((Tree.list cells).node, .list (firstTriples cells)) :: collectionsIn cells
  | .brackets n ps => (n, .brackets (propertyTriples n ps)) :: collectionsIn ps

/-- The inline collections of some cells or properties. -/
def collectionsIn : List (Node × Tree) → List (Node × Collection)
  | [] => []
  | (_, t) :: es => t.collections ++ collectionsIn es

end

mutual

/-- The nodes that a tree names. -/
def Tree.named : Tree → List Node
  | .term n => [n]
  | .anonymous _ => []
  | .list cells => namedIn cells
  | .brackets _ ps => namedIn ps

/-- The nodes that some cells or properties name as their items or objects. -/
def namedIn : List (Node × Tree) → List Node
  | [] => []
  | (_, t) :: es => t.named ++ namedIn es

end

theorem collectionsIn_eq_flatMap (es : List (Node × Tree)) :
    collectionsIn es = es.flatMap fun e => e.2.collections := by
  induction es with
  | nil => rfl
  | cons e es ih => rw [collectionsIn, ih, List.flatMap_cons]

theorem namedIn_eq_flatMap (es : List (Node × Tree)) :
    namedIn es = es.flatMap fun e => e.2.named := by
  induction es with
  | nil => rfl
  | cons e es ih => rw [namedIn, ih, List.flatMap_cons]

theorem mem_collectionsIn {es : List (Node × Tree)} {e : Node × Tree} (he : e ∈ es)
    {c : Node × Collection} (hc : c ∈ e.2.collections) : c ∈ collectionsIn es := by
  rw [collectionsIn_eq_flatMap]
  exact List.mem_flatMap.mpr ⟨e, he, hc⟩

theorem mem_namedIn {es : List (Node × Tree)} {e : Node × Tree} (he : e ∈ es) {n : Node}
    (hn : n ∈ e.2.named) : n ∈ namedIn es := by
  rw [namedIn_eq_flatMap]
  exact List.mem_flatMap.mpr ⟨e, he, hn⟩

/-- Induction over a tree whose names and predicates have a property each. -/
theorem Tree.induction_named {N V : Node → Prop} {P : Tree → Prop} (term : ∀ n, N n → P (.term n))
    (anonymous : ∀ n, P (.anonymous n)) (list : ∀ cells, (∀ e ∈ cells, P e.2) → P (.list cells))
    (brackets : ∀ n ps, (∀ e ∈ ps, V e.1) → (∀ e ∈ ps, P e.2) → P (.brackets n ps)) (t : Tree)
    (named : ∀ n ∈ t.named, N n) (verbs : ∀ c ∈ t.collections, ∀ u ∈ c.2.triples, V u.predicate) :
    P t := by
  induction t using Tree.induction with
  | term n => exact term n (named n (List.mem_singleton_self n))
  | anonymous n => exact anonymous n
  | list cells ih =>
    rw [Tree.named] at named
    rw [Tree.collections] at verbs
    apply list
    intro e he
    exact ih e he (fun n hn => named n (mem_namedIn he hn))
      (fun c hc => verbs c (List.mem_cons_of_mem _ (mem_collectionsIn he hc)))
  | brackets n ps ih =>
    rw [Tree.named] at named
    rw [Tree.collections] at verbs
    apply brackets
    · intro e he
      exact verbs _ List.mem_cons_self ⟨n, e.1, e.2.node⟩ (List.mem_map.mpr ⟨e, he, rfl⟩)
    · intro e he
      exact ih e he (fun m hm => named m (mem_namedIn he hm))
        (fun c hc => verbs c (List.mem_cons_of_mem _ (mem_collectionsIn he hc)))

def objectsOf (cs : List (Node × Collection)) : List Node := cs.flatMap fun e => e.2.items

theorem objects_in_perm {es : List (Node × Tree)}
    (h : ∀ e ∈ es, (e.2.node :: objectsOf e.2.collections).Perm
      (e.2.named ++ e.2.collections.map Prod.fst)) :
    (es.map (fun e => e.2.node) ++ objectsOf (collectionsIn es)).Perm
      (namedIn es ++ (collectionsIn es).map Prod.fst) := by
  induction es with
  | nil => exact .nil
  | cons e es ih =>
    obtain ⟨p, t⟩ := e
    have ht := h (p, t) List.mem_cons_self
    have hes := ih fun e he => h e (List.mem_cons_of_mem _ he)
    simp only [List.map_cons, collectionsIn, namedIn, objectsOf, List.flatMap_append, List.map_append,
      List.cons_append] at ht hes ⊢
    refine ((List.perm_append_comm_assoc _ _ _).cons _).trans ((ht.append hes).trans ?_)
    rw [List.append_assoc, List.append_assoc]
    exact (List.perm_append_comm_assoc _ _ _).append_left _

/-- Each object of the inline collections of a tree, and the node of the tree itself, is either named or
the key of an inline collection. -/
theorem Tree.objects_perm (t : Tree) :
    (t.node :: objectsOf t.collections).Perm (t.named ++ t.collections.map Prod.fst) := by
  induction t using Tree.induction with
  | term n => exact .refl _
  | anonymous n => exact .refl _
  | list cells ih =>
    have h := objects_in_perm ih
    simp only [Tree.collections, Tree.named, objectsOf, List.flatMap_cons, List.map_cons]
    have items : (Collection.list (firstTriples cells)).items = cells.map fun e => e.2.node := by
      simp [Collection.items, Collection.list, firstTriples]
    rw [items]
    exact (h.cons _).trans List.perm_middle.symm
  | brackets n ps ih =>
    have h := objects_in_perm ih
    simp only [Tree.collections, Tree.named, objectsOf, List.flatMap_cons, List.map_cons]
    have items : (Collection.brackets (propertyTriples n ps)).items = ps.map fun e => e.2.node := by
      simp [Collection.items, Collection.brackets, propertyTriples]
    rw [items]
    exact (h.cons _).trans List.perm_middle.symm

theorem namedIn_perm (es : List (Node × Tree)) :
    (es.map (fun e => e.2.node) ++ objectsOf (collectionsIn es)).Perm
      (namedIn es ++ (collectionsIn es).map Prod.fst) :=
  objects_in_perm fun e _ => e.2.objects_perm

def Subject.node : Subject → Node
  | .named n | .anonymous n => n

namespace Block

def subject : Block → Node
  | single t => t.subject
  | grouped s _ => s.node

def direct : Block → List Triple
  | single t => [t]
  | grouped s ps => propertyTriples s.node ps

/-- The inline collections of a block with their keys; a subject that is written as `[]` is one. -/
def collections : Block → List (Node × Collection)
  | single _ => []
  | grouped (.named _) ps => collectionsIn ps
  | grouped (.anonymous n) ps => (n, .brackets []) :: collectionsIn ps

/-- The triples of a block, those of its inline collections included. -/
def triples (b : Block) : List Triple := b.direct ++ b.collections.flatMap fun e => e.2.claims

/-- The triples of a block but for those that link the cells of lists. -/
def shown (b : Block) : List Triple := b.direct ++ b.collections.flatMap fun e => e.2.triples

/-- The subject of a block that does not name it. -/
def unnamed : Block → List Node
  | grouped (.anonymous n) _ => [n]
  | _ => []

/-- The nodes that a block names as objects. -/
def objectNames : Block → List Node
  | single t => [t.object]
  | grouped _ ps => namedIn ps

/-- The subject of a block that names it. -/
def subjectNames : Block → List Node
  | single t => [t.subject]
  | grouped (.named n) _ => [n]
  | grouped (.anonymous _) _ => []

/-- The nodes that a block writes by name. -/
def printed (b : Block) : List Node :=
  b.subjectNames ++ b.shown.map Triple.predicate ++ b.objectNames

theorem mem_printed_of_subject {b : Block} {n : Node} (h : n ∈ b.subjectNames) : n ∈ b.printed :=
  List.mem_append_left _ (List.mem_append_left _ h)

theorem mem_printed_of_shown {b : Block} {t : Triple} (h : t ∈ b.shown) : t.predicate ∈ b.printed :=
  List.mem_append_left _ (List.mem_append_right _ (List.mem_map_of_mem h))

theorem mem_printed_of_object {b : Block} {n : Node} (h : n ∈ b.objectNames) : n ∈ b.printed :=
  List.mem_append_right _ h

theorem of_subjectNames {b : Block} {n : Node} (h : n ∈ b.subjectNames) :
    n = b.subject ∧ b.unnamed = [] := by
  cases b with
  | single t => exact ⟨List.mem_singleton.mp h, rfl⟩
  | grouped s ps =>
    cases s with
    | named m => exact ⟨List.mem_singleton.mp h, rfl⟩
    | anonymous m => exact absurd h List.not_mem_nil

theorem of_unnamed {b : Block} {n : Node} (h : n ∈ b.unnamed) :
    ∃ ps, b = .grouped (.anonymous n) ps := by
  cases b with
  | single t => exact absurd h List.not_mem_nil
  | grouped s ps =>
    cases s with
    | named m => exact absurd h List.not_mem_nil
    | anonymous m => exact ⟨ps, by rw [List.mem_singleton.mp h]⟩

theorem mem_shown_of_property {s : Subject} {ps : List (Node × Tree)} {e : Node × Tree} (he : e ∈ ps) :
    ⟨s.node, e.1, e.2.node⟩ ∈ (grouped s ps).shown :=
  List.mem_append_left _ (List.mem_map.mpr ⟨e, he, rfl⟩)

theorem mem_shown_of_inline {s : Subject} {ps : List (Node × Tree)} {e : Node × Tree} (he : e ∈ ps)
    {c : Node × Collection} (hc : c ∈ e.2.collections) {u : Triple} (hu : u ∈ c.2.triples) :
    u ∈ (grouped s ps).shown := by
  refine List.mem_append_right _ (List.mem_flatMap.mpr ⟨c, ?_, hu⟩)
  cases s with
  | named n => exact mem_collectionsIn he hc
  | anonymous n => exact List.mem_cons_of_mem _ (mem_collectionsIn he hc)

/-- Each object of a block, and its subject when it has no name, is either named or the key of an inline
collection. -/
theorem objects_perm (b : Block) : (b.unnamed ++ b.shown.map Triple.object).Perm
    (b.objectNames ++ b.collections.map Prod.fst) := by
  have items (cs : List (Node × Collection)) :
      (cs.flatMap fun e => e.2.triples).map Triple.object = objectsOf cs := by
    rw [List.map_flatMap]
    rfl
  have direct (n : Node) (ps : List (Node × Tree)) :
      (propertyTriples n ps).map Triple.object = ps.map fun e => e.2.node := by
    simp [propertyTriples]
  cases b with
  | single t => exact .refl _
  | grouped s ps =>
    have h := namedIn_perm ps
    cases s with
    | named n =>
      simp only [unnamed, shown, Block.direct, collections, objectNames, Subject.node,
        List.map_append, direct, items, List.nil_append]
      exact h
    | anonymous n =>
      simp only [unnamed, shown, Block.direct, collections, objectNames, Subject.node,
        List.map_append, direct, items, List.flatMap_cons, List.map_cons]
      exact (h.cons n).trans List.perm_middle.symm

end Block

/-! ### Documents -/

theorem flatMap_triples_perm (bs : List Block) : (bs.flatMap Block.triples).Perm
    (bs.flatMap Block.direct ++ (bs.flatMap Block.collections).flatMap fun e => e.2.claims) := by
  rw [List.flatMap_assoc]
  exact (List.flatMap_append_perm bs _ _).symm

theorem flatMap_shown_sublist (bs : List Block) :
    (bs.flatMap Block.shown).Sublist (bs.flatMap Block.triples) :=
  .flatMap_right bs fun b _ =>
    (List.Sublist.refl _).append (.flatMap_right b.collections fun e _ => triples_sublist_claims e.2)

theorem flatMap_objects_perm (bs : List Block) :
    (bs.flatMap Block.unnamed ++ (bs.flatMap Block.shown).map Triple.object).Perm
      (bs.flatMap Block.objectNames ++ (bs.flatMap Block.collections).map Prod.fst) := by
  rw [List.map_flatMap, List.map_flatMap]
  refine (List.flatMap_append_perm bs _ _).trans ?_
  exact (List.Perm.flatMap_left bs fun b _ => b.objects_perm).trans
    (List.flatMap_append_perm bs _ _).symm

end TripleStore.Turtle
