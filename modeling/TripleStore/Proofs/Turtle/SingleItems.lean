import TripleStore.Proofs.Turtle.Accounting
import TripleStore.Proofs.Turtle.TreeNodes

/-! # Lists of a single item

The analysis counts three mentions for each cell of a list, the writer leaves one that is not a claim: only
a list of a single cell can have both. So every list in a document has one item, and what the writer does
with the cells behind the first one does not matter: any other treatment of them gives the same
document. -/
namespace TripleStore.Turtle

/-! ### Lists in documents -/

mutual

/-- A tree and the trees inside it. -/
def Tree.parts : Tree → List Tree
  | .term n => [.term n]
  | .anonymous n => [.anonymous n]
  | .list cells => .list cells :: partsIn cells
  | .brackets n ps => .brackets n ps :: partsIn ps

/-- The trees inside some cells or properties. -/
def partsIn : List (Node × Tree) → List Tree
  | [] => []
  | (_, t) :: es => t.parts ++ partsIn es

end

def Block.parts : Block → List Tree
  | .single _ => []
  | .grouped _ ps => partsIn ps

theorem exists_of_mem_partsIn {es : List (Node × Tree)} {t : Tree} (h : t ∈ partsIn es) :
    ∃ e ∈ es, t ∈ e.2.parts := by
  induction es with
  | nil => exact absurd h List.not_mem_nil
  | cons e es ih =>
    rcases List.mem_append.mp h with h | h
    · exact ⟨e, List.mem_cons_self, h⟩
    · obtain ⟨e', he, h⟩ := ih h
      exact ⟨e', List.mem_cons_of_mem _ he, h⟩

/-- A list inside a tree is one of its inline collections. -/
theorem Tree.mem_collections_of_list {t : Tree} {cells : List (Node × Tree)} (h : .list cells ∈ t.parts) :
    ((Tree.list cells).node, Collection.list (firstTriples cells)) ∈ t.collections := by
  induction t using Tree.induction with
  | term n => simp [Tree.parts] at h
  | anonymous n => simp [Tree.parts] at h
  | list cells' ih =>
    rw [Tree.parts] at h
    rw [Tree.collections]
    rcases List.mem_cons.mp h with same | h
    · rw [← same, Tree.list.inj same]
      exact List.mem_cons_self
    · obtain ⟨e, he, h⟩ := exists_of_mem_partsIn h
      exact List.mem_cons_of_mem _ (mem_collectionsIn he (ih e he h))
  | brackets n ps ih =>
    rw [Tree.parts] at h
    rw [Tree.collections]
    rcases List.mem_cons.mp h with same | h
    · exact absurd same (by simp)
    · obtain ⟨e, he, h⟩ := exists_of_mem_partsIn h
      exact List.mem_cons_of_mem _ (mem_collectionsIn he (ih e he h))

theorem Block.mem_collections_of_list {b : Block} {cells : List (Node × Tree)}
    (h : .list cells ∈ b.parts) :
    ((Tree.list cells).node, Collection.list (firstTriples cells)) ∈ b.collections := by
  cases b with
  | single t => exact absurd h List.not_mem_nil
  | grouped s ps =>
    obtain ⟨e, he, h⟩ := exists_of_mem_partsIn h
    have inline := mem_collectionsIn he (Tree.mem_collections_of_list h)
    cases s with
    | named n => exact inline
    | anonymous n => exact List.mem_cons_of_mem _ inline

/-! ### Registries of single items -/

/-- Every list of a registry has one cell. -/
def HasSingles (r : Registry) : Prop :=
  ∀ k c, r.get? k = some c → c.form = .list → ∃ first, c.triples = [first]

theorem Settled.hasSingles {g : Graph} {r : Registry} (h : Settled g r) : HasSingles r := by
  intro k c hk hc
  obtain ⟨l, hl⟩ := h.inlinable k c hk
  obtain ⟨x, hx⟩ := hl.list hc
  exact ⟨_, hx⟩

theorem HasSingles.markWritten {r : Registry} (h : HasSingles r) (k : Node) :
    HasSingles (r.markWritten k).2 := by
  cases hk : r.get? k with
  | none => simpa [Registry.markWritten, hk] using h
  | some c =>
    intro k' c' hk' hc'
    rw [Registry.get?_markWritten hk] at hk'
    split at hk'
    · obtain rfl := Option.some.inj hk'
      exact h k c hk hc'
    · exact h k' c' hk' hc'

theorem IsLayout.single_of_list {g : Graph} {r r' : Registry} {bs : List Block} (h : IsLayout g r bs r')
    (hr : HasSingles r) {cells : List (Node × Tree)} (hc : .list cells ∈ bs.flatMap Block.parts) :
    ∃ k t, cells = [(k, t)] := by
  obtain ⟨b, hb, part⟩ := List.mem_flatMap.mp hc
  obtain ⟨c, hk, shows⟩ :=
    h.laid.shows _ (List.mem_flatMap.mpr ⟨b, hb, Block.mem_collections_of_list part⟩)
  obtain ⟨first, single⟩ := hr _ c hk shows.form.symm
  have length := shows.triples.length_eq
  rw [single, Collection.list, firstTriples, List.length_map, List.length_singleton] at length
  obtain ⟨⟨k, t⟩, rfl⟩ := List.length_eq_one_iff.mp length
  exact ⟨k, t, rfl⟩

theorem single_of_layOut {o : Options} {g : Graph} {d : Document} (h : layOut o g = .ok d)
    {cells : List (Node × Tree)} (hc : .list cells ∈ d.blocks.flatMap Block.parts) :
    ∃ k t, cells = [(k, t)] := by
  obtain ⟨r, hr, rfl⟩ := exists_of_map_eq_ok h
  have settled := settled_collectionsFor hr
  have named (bs : List Triple) : (bs.map Block.single).flatMap Block.parts = [] := by
    rw [List.flatMap_map]
    exact List.flatMap_eq_nil_iff.mpr fun _ _ => rfl
  have remaining (r : Registry) : (layRemaining r).flatMap Block.parts = [] := by
    rw [layRemaining, List.flatMap_assoc]
    exact List.flatMap_eq_nil_iff.mpr fun e _ => named e.2.claims
  simp only [layBlocks] at hc
  split at hc
  · rw [List.flatMap_append, remaining, List.append_nil] at hc
    exact (isLayout_laySubjects settled.isProper).single_of_list settled.hasSingles hc
  · rw [List.flatMap_append, remaining, named] at hc
    exact absurd hc List.not_mem_nil

/-! ### Other treatments of further cells -/

/-- A treatment of the cells of a list behind the first one: whether the list may have such a cell, and how
the cell is laid out. -/
structure FurtherCells where
  allowed : Graph → Collection → Triple → Bool
  lay : (Node → Registry → Tree × Registry) → Triple → Registry → (Node × Tree) × Registry

namespace FurtherCells

/-- The treatment by the writer: all mentions of a further cell must be claims, and its item is laid out
like the first one. -/
def standard : FurtherCells where
  allowed g c first := (g.mentioning first.subject).all c.claims.contains
  lay object t r := let (o, r) := object t.object r; ((t.subject, o), r)

def canBeInlined (x : FurtherCells) (g : Graph) (k : Node) (c : Collection) : Bool :=
  match links g k c with
  | [link] =>
    match c.form with
    | .brackets =>
      if c.isEmpty then decide (link.subject = k) != decide (link.object = k)
      else link.object = k && link.subject ≠ k &&
        c.triples.all fun t => t.subject = k && t.object ≠ k
    | .list => link.object = k && link.subject ≠ k && (c.triples.drop 1).all (x.allowed g c)
  | _ => false

def settle (x : FurtherCells) (g : Graph) (r : Registry) : Registry :=
  let kept := r.filter (x.canBeInlined g)
  kept.filter fun k _ => !isCyclic kept k

def layCells (x : FurtherCells) (object : Node → Registry → Tree × Registry) :
    List Triple → Registry → List (Node × Tree) × Registry
  | [], r => ([], r)
  | first :: firsts, r =>
    let (o, r) := object first.object r
    let (cells, r) := thread (x.lay object) firsts r
    ((first.subject, o) :: cells, r)

def layObject (x : FurtherCells) : Nat → Node → Registry → Tree × Registry
  | 0, n, r => (.term n, r)
  | depth + 1, n, r =>
    match r.get? n with
    | none => (.term n, r)
    | some c =>
      if c.written then (.term n, r)
      else
        let r := (r.markWritten n).2
        match c.form with
        | .list =>
          let (cells, r) := x.layCells (x.layObject depth) c.triples r
          (.list cells, r)
        | .brackets =>
          if c.isEmpty then (.anonymous n, r)
          else
            let (properties, r) := layProperties (x.layObject depth) c.triples r
            (.brackets n properties, r)

def layBlock (x : FurtherCells) (g : Graph) (claimed : List Triple) (subject : Node) (r : Registry) :
    Block × Registry :=
  let (s, r) := laySubject subject r
  let ts := (g.withSubject subject).filter (!claimed.contains ·)
  let (properties, r) := layProperties (x.layObject r.size) ts r
  (.grouped s properties, r)

def laySubjects (x : FurtherCells) (g : Graph) (r : Registry) : List Block × Registry :=
  let claimed := r.claims
  thread (x.layBlock g claimed) ((unclaimed g claimed).map Triple.subject).eraseDups r

def layBlocks (x : FurtherCells) (level : Level) (g : Graph) (r : Registry) : List Block :=
  if level.groups then
    let (blocks, r) := x.laySubjects g r
    blocks ++ layRemaining r
  else g.toList.map .single ++ layRemaining r

def collectionsFor (x : FurtherCells) (level : Level) (g : Graph) : Except ListError Registry :=
  if level.collects then (g.collections .all).map fun a => x.settle g a.registry else .ok .empty

def layOut (x : FurtherCells) (o : Options) (g : Graph) : Except ListError Document :=
  (x.collectionsFor o.level g).map fun r =>
    { prefixes := o.prefixes.entries
      hasTriples := !g.isEmpty
      blocks := x.layBlocks o.level g r }

theorem layCells_standard : standard.layCells = Turtle.layCells := by
  funext object ts r
  cases ts <;> rfl

theorem layObject_standard : standard.layObject = Turtle.layObject := by
  funext depth
  induction depth with
  | zero => rfl
  | succ depth ih =>
    funext n r
    rw [layObject, ih, layCells_standard]
    rfl

theorem canBeInlined_standard : standard.canBeInlined = Turtle.canBeInlined := rfl

theorem collectionsFor_standard : standard.collectionsFor = Turtle.collectionsFor := by
  unfold collectionsFor Turtle.collectionsFor settle Turtle.settle
  rw [canBeInlined_standard]

theorem layBlocks_standard : standard.layBlocks = Turtle.layBlocks := by
  unfold layBlocks Turtle.layBlocks laySubjects Turtle.laySubjects layBlock Turtle.layBlock
  rw [layObject_standard]

/-- The standard treatment is that of the writer, for all graphs and registries. -/
theorem layOut_standard : standard.layOut = Turtle.layOut := by
  unfold layOut Turtle.layOut
  rw [collectionsFor_standard, layBlocks_standard]

end FurtherCells

/-! ### Agreement -/

/-- Two functions that agree on the states that are passed through give the same when threaded. -/
theorem thread_congr {α β σ : Type} {f f' : α → σ → β × σ} {I : σ → Prop}
    (step : ∀ a s, I s → f' a s = f a s ∧ I (f a s).2) (as : List α) {s : σ} (hs : I s) :
    thread f' as s = thread f as s ∧ I (thread f as s).2 := by
  induction as generalizing s with
  | nil => exact ⟨rfl, hs⟩
  | cons a as ih =>
    obtain ⟨same, next⟩ := step a s hs
    obtain ⟨rest, last⟩ := ih next
    refine ⟨?_, last⟩
    rw [thread, thread, same]
    dsimp only
    rw [rest]

/-- Two ways to lay out an object that do the same at registries of single items, and lead to such
registries. -/
def Agree (object object' : Node → Registry → Tree × Registry) : Prop :=
  ∀ n r, HasSingles r → object' n r = object n r ∧ HasSingles (object n r).2

theorem Agree.layProperties {object object' : Node → Registry → Tree × Registry} (h : Agree object object')
    (ts : List Triple) {r : Registry} (hr : HasSingles r) :
    layProperties object' ts r = layProperties object ts r ∧ HasSingles (layProperties object ts r).2 := by
  refine thread_congr (fun t s hs => ?_) (groupByPredicate ts) hr
  obtain ⟨same, singles⟩ := h t.object s hs
  exact ⟨by rw [same], singles⟩

theorem hasSingles_laySubject {r : Registry} (h : HasSingles r) (n : Node) :
    HasSingles (laySubject n r).2 := by
  unfold laySubject
  split
  · exact h
  · split
    · exact h.markWritten n
    · exact h

namespace FurtherCells
variable {x y : FurtherCells}

theorem layCells_congr {object object' : Node → Registry → Tree × Registry} (h : Agree object object')
    (first : Triple) {r : Registry} (hr : HasSingles r) :
    x.layCells object' [first] r = y.layCells object [first] r ∧
      HasSingles (y.layCells object [first] r).2 := by
  obtain ⟨same, singles⟩ := h first.object r hr
  refine ⟨?_, singles⟩
  rw [layCells, layCells, same]
  rfl

theorem agree_layObject (x y : FurtherCells) (depth : Nat) :
    Agree (y.layObject depth) (x.layObject depth) := by
  induction depth with
  | zero => exact fun n r hr => ⟨rfl, hr⟩
  | succ depth ih =>
    intro n r hr
    have marked : HasSingles (r.markWritten n).2 := hr.markWritten n
    rw [layObject, layObject]
    cases hn : r.get? n with
    | none => exact ⟨rfl, hr⟩
    | some c =>
      dsimp only
      split
      · exact ⟨rfl, hr⟩
      · cases hc : c.form with
        | list =>
          obtain ⟨first, single⟩ := hr n c hn hc
          obtain ⟨same, singles⟩ := layCells_congr (x := x) (y := y) ih first marked
          rw [single, same]
          exact ⟨rfl, singles⟩
        | brackets =>
          dsimp only
          split
          · exact ⟨rfl, marked⟩
          · obtain ⟨same, singles⟩ := ih.layProperties c.triples marked
            rw [same]
            exact ⟨rfl, singles⟩

theorem layBlock_congr (x y : FurtherCells) (g : Graph) (claimed : List Triple) (subject : Node)
    {r : Registry} (hr : HasSingles r) :
    x.layBlock g claimed subject r = y.layBlock g claimed subject r ∧
      HasSingles (y.layBlock g claimed subject r).2 := by
  have after := hasSingles_laySubject hr subject
  obtain ⟨same, singles⟩ := (agree_layObject x y (laySubject subject r).2.size).layProperties
    ((g.withSubject subject).filter (!claimed.contains ·)) after
  refine ⟨?_, singles⟩
  rw [layBlock, layBlock]
  dsimp only
  rw [same]

theorem layBlocks_congr (x y : FurtherCells) (level : Level) (g : Graph) {r : Registry}
    (hr : HasSingles r) : x.layBlocks level g r = y.layBlocks level g r := by
  obtain ⟨same, -⟩ := thread_congr (fun subject s hs => layBlock_congr x y g r.claims subject hs)
    ((unclaimed g r.claims).map Triple.subject).eraseDups hr
  unfold layBlocks laySubjects
  rw [same]

/-- An eligible list that is mentioned once from outside has no further cells to be tested. -/
theorem canBeInlined_congr (x y : FurtherCells) {g : Graph} {k : Node} {c : Collection} (hf : Found g k c)
    (he : Analysis.isEligible g k c = true) : x.canBeInlined g k c = y.canBeInlined g k c := by
  unfold canBeInlined
  split
  next l hl =>
    cases hc : c.form with
    | brackets => rfl
    | list =>
      obtain ⟨item, single⟩ := one_cell hf he hl hc
      rw [single]
      rfl
  next => rfl

theorem settle_congr (x y : FurtherCells) {g : Graph} {mode : SearchMode} {a : Analysis}
    (h : g.collections mode = .ok a) : x.settle g a.registry = y.settle g a.registry := by
  have kept : a.registry.filter (x.canBeInlined g) = a.registry.filter (y.canBeInlined g) := by
    refine Registry.filter_congr fun k c hk => ?_
    obtain ⟨hf, he⟩ := Graph.collections_found h hk
    exact canBeInlined_congr x y hf he
  rw [settle, settle, kept]

theorem collectionsFor_congr (x y : FurtherCells) (level : Level) (g : Graph) :
    x.collectionsFor level g = y.collectionsFor level g := by
  unfold collectionsFor
  split
  · exact map_congr_of_ok fun a found => settle_congr x y found
  · rfl

/-- Whatever is done with the cells of a list behind the first one, the writer lays out the same. -/
theorem layOut_eq (x : FurtherCells) (o : Options) (g : Graph) : x.layOut o g = Turtle.layOut o g := by
  rw [← layOut_standard, layOut, layOut, collectionsFor_congr x standard]
  refine map_congr_of_ok fun r found => ?_
  rw [collectionsFor_standard] at found
  have singles : HasSingles r := (settled_collectionsFor found).hasSingles
  rw [layBlocks_congr x standard o.level g singles]

end FurtherCells

/-- A graph whose lists can be read is written with lists of one item only. Each settled list has one
cell, and neither the test whether a collection can be inlined nor the document depends on what is done
with further cells. -/
theorem layOut_singleItems {g : Graph} {a : Analysis} (h : g.collections .all = .ok a) (o : Options) :
    (∀ k c, (settle g a.registry).get? k = some c → c.form = .list → c.size = 1) ∧
    (∃ d, layOut o g = .ok d ∧ write o g ⟨none, []⟩ = (.ok (), ⟨none, utf8Bytes (d.text o)⟩) ∧
      ∀ cells, .list cells ∈ d.blocks.flatMap Block.parts →
        ∃ k t, cells = [(k, t)] ∧ (Tree.list cells).text o = "( " ++ t.text o ++ " )") ∧
    ∀ x : FurtherCells, (∀ k c, a.registry.get? k = some c → x.canBeInlined g k c = canBeInlined g k c) ∧
      x.layOut o g = layOut o g := by
  refine ⟨fun k c hk hc => ?sizes, ?document, fun x => ⟨fun k c hk => ?test, x.layOut_eq o g⟩⟩
  case sizes =>
    obtain ⟨first, single⟩ := (settled_settle h).hasSingles k c hk hc
    rw [Collection.size, single, List.length_singleton]
  case document =>
    obtain ⟨d, laid⟩ : ∃ d, layOut o g = .ok d := by
      rw [layOut, collectionsFor, h]
      split <;> exact ⟨_, rfl⟩
    refine ⟨d, laid, write_unlimited laid [], fun cells part => ?_⟩
    obtain ⟨k, t, rfl⟩ := single_of_layOut laid part
    exact ⟨k, t, rfl, rfl⟩
  case test =>
    obtain ⟨found, eligible⟩ := Graph.collections_found h hk
    rw [← FurtherCells.canBeInlined_standard]
    exact x.canBeInlined_congr .standard found eligible

open Analysis in
/-- The list between the brackets is settled and has one cell. -/
theorem layOut_singleItems_nested : ∃ a c, nested.collections .all = .ok a ∧
    (settle nested a.registry).get? (.blank "c") = some c ∧ c.form = .list ∧ c.size = 1 := by
  have tails : Node.blank "c" ∈ tails nested := by decide
  have walk : walkList nested (.blank "c") = .ok (some [⟨.blank "c", .rdfFirst, .blank "d"⟩]) :=
    walkFrom_head [] (by decide) (by decide) rfl (by decide)
  have legal : ∀ t ∈ nested.toList, t.isLegal = true := by decide
  obtain ⟨a, found⟩ := collections_nested
  have settled : (settle nested a.registry).contains (.blank "c") = true :=
    contains_settle_of_treeNode legal found rfl (isTreeNode_nested _ (by decide))
  obtain ⟨c, hc⟩ := Registry.contains_iff.mp settled
  have list : c.form = .list := by
    obtain ⟨b, candidates, rfl⟩ := exists_candidates found
    obtain ⟨c', hc', list, -⟩ := candidates.exists_list tails walk
    have candidate : b.registry.get? (.blank "c") = some c := by
      have kept := (get?_revoke.mp (get?_settle.mp hc).1.1).1
      rw [claim_registry, get?_cleared] at kept
      exact kept.1.1
    exact Option.some.inj (hc'.symm.trans candidate) ▸ list
  exact ⟨a, c, found, hc, list, (layOut_singleItems found {}).1 _ c hc list⟩

end TripleStore.Turtle
