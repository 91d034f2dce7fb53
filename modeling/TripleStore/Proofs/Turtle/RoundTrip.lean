import TripleStore.Proofs.Turtle.Coverage
import TripleStore.Proofs.Turtle.Grammar
import TripleStore.Proofs.Turtle.Sending
import TripleStore.Proofs.Turtle.Statements
import TripleStore.Store

/-! # Round trips

What has been written for a graph is read as the same graph, up to the labels of the blank nodes that are
written without them. -/
namespace TripleStore

/-- The same triples up to order and a renaming of blank nodes that keeps different nodes different. -/
def Isomorphic (ts us : List Triple) : Prop :=
  ∃ f : Node → Node, (∀ x, x.isBlank = false → f x = x) ∧ (∀ x, x.isBlank = true → (f x).isBlank = true) ∧
    (∀ x ∈ Triple.blankNodes ts, ∀ y ∈ Triple.blankNodes ts, f x = f y → x = y) ∧
    us.Perm (ts.map (Triple.rename f))

namespace Turtle

theorem anonymousNode_inj {m n : Nat} (h : Reader.anonymousNode m = Reader.anonymousNode n) :
    m = n := by
  have h := congrArg String.toList (Node.blank.inj h)
  -- The digits stand between two brackets.
  have h := congrArg (fun cs => Nat.ofDigitChars 10 (cs.tail.dropLast) 0) h
  simpa using h

theorem not_admits_anonymousNode (lx : Lexicon) (n : Nat) :
    lx.admits (Reader.anonymousNode n) = false := by
  have label : ("[" ++ toString n ++ "]").toList = '[' :: (toString n ++ "]").toList := by simp
  rw [Reader.anonymousNode, Lexicon.admits, Lexicon.isLabel, label]
  rfl

/-- The renaming that gives some nodes the numbers of their places. -/
def numbering (bs : List Node) (x : Node) : Node :=
  if x ∈ bs then Reader.anonymousNode (bs.idxOf x) else x

theorem numbering_of_not_mem {bs : List Node} {x : Node} (h : x ∉ bs) : numbering bs x = x := if_neg h

theorem numbered_numbering {bs : List Node} (h : bs.Nodup) : Numbered (numbering bs) 0 bs := by
  have behind (as cs : List Node) (h : (as ++ cs).Nodup) :
      Numbered (numbering (as ++ cs)) as.length cs := by
    induction cs generalizing as with
    | nil => trivial
    | cons c cs ih =>
      have hc : c ∉ as := fun hm => (List.nodup_append.mp h).2.2 c hm c List.mem_cons_self rfl
      refine ⟨?_, ?_⟩
      · rw [numbering, if_pos (by simp), List.idxOf_append_of_notMem hc, List.idxOf_cons_self,
          Nat.add_zero]
      · have := ih (as ++ [c]) (by simpa using h)
        simpa using this
  exact behind [] bs h

/-- A triple that is legal and whose nodes a lexicon can read back. -/
def Lexicon.admitsTriple (lx : Lexicon) (t : Triple) : Bool :=
  t.isLegal && lx.admits t.subject && lx.admits t.predicate && lx.admits t.object

theorem Lexicon.of_admitsTriple {lx : Lexicon} {t : Triple} (h : lx.admitsTriple t = true) :
    t.isLegal = true ∧ lx.admits t.subject = true ∧ lx.admits t.predicate = true ∧
      lx.admits t.object = true := by
  simp only [admitsTriple, Bool.and_eq_true] at h
  exact ⟨h.1.1.1, h.1.1.2, h.1.2, h.2⟩

/-- Blocks that hold the triples of a graph and name no node that they also write without its label. -/
structure IsFaithful (g : Graph) (bs : List Block) : Prop where
  triples : (bs.flatMap Block.triples).Perm g.toList
  direct : ∀ b ∈ bs, b.direct ≠ []
  nodup : (bs.flatMap Block.blanks).Nodup
  blank : ∀ x ∈ bs.flatMap Block.blanks, x.isBlank = true
  subject : ∀ b ∈ bs, ∀ x ∈ b.subjectNames, x ∉ bs.flatMap Block.blanks
  object : ∀ b ∈ bs, ∀ x ∈ b.objectNames, x ∉ bs.flatMap Block.blanks

theorem subject_of_direct {b : Block} {t : Triple} (h : t ∈ b.direct) : t.subject = b.subject := by
  cases b with
  | single u => exact congrArg Triple.subject (List.mem_singleton.mp h)
  | grouped s ps =>
    obtain ⟨e, -, rfl⟩ := List.mem_map.mp h
    rfl

namespace IsFaithful
variable {lx : Lexicon} {g : Graph} {bs : List Block}

theorem admits_shown (h : IsFaithful g bs) (legal : ∀ t ∈ g.toList, lx.admitsTriple t = true) {b : Block}
    (hb : b ∈ bs) {t : Triple} (ht : t ∈ b.shown) : lx.admitsTriple t = true :=
  legal t (h.triples.mem_iff.mp ((flatMap_shown_sublist bs).subset (List.mem_flatMap.mpr ⟨b, hb, ht⟩)))

theorem exists_subject (h : IsFaithful g bs) {b : Block} (hb : b ∈ bs) :
    ∃ t ∈ b.shown, t.subject = b.subject := by
  obtain ⟨t, ht⟩ := List.exists_mem_of_ne_nil _ (h.direct b hb)
  exact ⟨t, List.mem_append_left _ ht, subject_of_direct ht⟩

theorem admits_subject (h : IsFaithful g bs) (legal : ∀ t ∈ g.toList, lx.admitsTriple t = true)
    {b : Block} (hb : b ∈ bs) :
    lx.admits b.subject = true ∧ (b.subject.isIri || b.subject.isBlank) = true := by
  obtain ⟨t, ht, e⟩ := h.exists_subject hb
  obtain ⟨isLegal, subject, -, -⟩ := Lexicon.of_admitsTriple (h.admits_shown legal hb ht)
  exact e ▸ ⟨subject, (Triple.of_isLegal isLegal).1⟩

theorem admits_object (h : IsFaithful g bs) (legal : ∀ t ∈ g.toList, lx.admitsTriple t = true)
    {b : Block} (hb : b ∈ bs) {x : Node} (hx : x ∈ b.objectNames) : lx.admits x = true := by
  have := b.objects_perm.mem_iff.mpr (List.mem_append_left _ hx)
  rcases List.mem_append.mp this with hu | ho
  · obtain ⟨ps, rfl⟩ := Block.of_unnamed hu
    exact (h.admits_subject legal hb).1
  · obtain ⟨t, ht, rfl⟩ := List.mem_map.mp ho
    exact (Lexicon.of_admitsTriple (h.admits_shown legal hb ht)).2.2.2

theorem verbal (h : IsFaithful g bs) (legal : ∀ t ∈ g.toList, lx.admitsTriple t = true) {b : Block}
    (hb : b ∈ bs) {t : Triple} (ht : t ∈ b.shown) : IsVerbal lx t.predicate := by
  obtain ⟨isLegal, -, predicate, -⟩ := Lexicon.of_admitsTriple (h.admits_shown legal hb ht)
  exact ⟨predicate, (Triple.of_isLegal isLegal).2.1⟩

theorem admits_printed (h : IsFaithful g bs) (legal : ∀ t ∈ g.toList, lx.admitsTriple t = true)
    {b : Block} (hb : b ∈ bs) {x : Node} (hx : x ∈ b.printed) : lx.admits x = true := by
  rw [Block.printed, List.mem_append, List.mem_append] at hx
  rcases hx with (hx | hx) | hx
  · obtain ⟨rfl, -⟩ := Block.of_subjectNames hx
    exact (h.admits_subject legal hb).1
  · obtain ⟨t, ht, rfl⟩ := List.mem_map.mp hx
    exact (h.verbal legal hb ht).1
  · exact h.admits_object legal hb hx

/-- A block can be read with any names for the nodes that it writes without their labels. -/
theorem isReadable (h : IsFaithful g bs) (legal : ∀ t ∈ g.toList, lx.admitsTriple t = true)
    {f : Node → Node} (fixed : ∀ x, x ∉ bs.flatMap Block.blanks → f x = x) {b : Block} (hb : b ∈ bs) :
    IsReadable lx f b where
  subject x hx := by
    have fixed := fixed x (h.subject b hb x hx)
    obtain ⟨rfl, -⟩ := Block.of_subjectNames hx
    have := h.admits_subject legal hb
    exact ⟨⟨fixed, this.1⟩, this.2⟩
  verbs t ht := h.verbal legal hb ht
  objects x hx := ⟨fixed x (h.object b hb x hx), h.admits_object legal hb hx⟩
  direct := h.direct b hb

theorem rdfNil_not_mem (h : IsFaithful g bs) : .rdfNil ∉ bs.flatMap Block.blanks :=
  fun hm => absurd (h.blank _ hm) (by decide)

/-- Behind the heading of a document each block is read as its own triples. -/
theorem read?_block (h : IsFaithful g bs) (legal : ∀ t ∈ g.toList, lx.admitsTriple t = true)
    {o : Options} {d : Document} (prefixes : d.prefixes = o.prefixes.entries) {b : Block} (hb : b ∈ bs) :
    ∃ ts, read? lx none (d.heading ++ (b.text o ++ "\n")) = some ts ∧
      ts.Perm (b.triples.map (Triple.rename (numbering b.blanks))) := by
  have inner {x : Node} (hx : x ∈ b.blanks) : x ∈ bs.flatMap Block.blanks :=
    List.mem_flatMap.mpr ⟨b, hb, hx⟩
  have fixed (x : Node) (hx : x ∉ bs.flatMap Block.blanks) : numbering b.blanks x = x :=
    numbering_of_not_mem fun hm => hx (inner hm)
  have nodup : b.blanks.Nodup := (List.nodup_flatMap.mp h.nodup).1 b hb
  let alone : Document := { d with blocks := [b] }
  have text : alone.text o = d.heading ++ (b.text o ++ "\n") := by
    rw [Document.text_eq]
    simp [alone, Document.heading]
  obtain ⟨ts, read, perm⟩ := read?_text (d := alone) (fixed _ h.rdfNil_not_mem) prefixes
    (List.forall_mem_singleton.mpr fun x hx => h.admits_printed legal hb hx)
    (List.forall_mem_singleton.mpr (h.isReadable legal fixed hb))
    (by simpa [alone] using numbered_numbering nodup)
  exact ⟨ts, text ▸ read, by simpa [alone] using perm⟩

theorem isomorphic (h : IsFaithful g bs) (legal : ∀ t ∈ g.toList, lx.admitsTriple t = true)
    {ts : List Triple} (hts : ts.Perm ((bs.flatMap Block.triples).map
      (Triple.rename (numbering (bs.flatMap Block.blanks))))) : Isomorphic g.toList ts := by
  have admits {x : Node} (hx : x ∈ Triple.blankNodes g.toList) : lx.admits x = true := by
    rw [Triple.blankNodes, List.mem_eraseDups, List.mem_filter, List.mem_flatMap] at hx
    obtain ⟨⟨t, ht, hx⟩, -⟩ := hx
    obtain ⟨-, subject, -, object⟩ := Lexicon.of_admitsTriple (legal t ht)
    rcases List.mem_pair.mp hx with rfl | rfl
    · exact subject
    · exact object
  refine ⟨numbering (bs.flatMap Block.blanks), fun x hx => ?_, fun x hx => ?_, fun x hx y hy e => ?_,
    hts.trans (h.triples.map _)⟩
  · refine if_neg fun hm => ?_
    rw [h.blank x hm] at hx
    exact absurd hx (by decide)
  · unfold numbering
    split
    · rfl
    · exact hx
  · unfold numbering at e
    split at e
    next hx' =>
      split at e
      next hy' => exact (List.idxOf_inj hx').mp (anonymousNode_inj e)
      -- A node that is drawn has a label that no lexicon admits.
      next => exact absurd (admits hy) (by simp [← e, not_admits_anonymousNode])
    next =>
      split at e
      next => exact absurd (admits hx) (by simp [e, not_admits_anonymousNode])
      next => exact e

end IsFaithful

/-! ### The blocks of a graph -/

theorem propertyBlanks_eq {ps : List (Node × Tree)}
    (h : ∀ e ∈ ps, e.2.blanks = e.2.collections.map Prod.fst) :
    propertyBlanks ps = (collectionsIn ps).map Prod.fst := by
  induction ps with
  | nil => rfl
  | cons e ps ih =>
    obtain ⟨p, t⟩ := e
    obtain ⟨ht, hps⟩ := List.forall_mem_cons.mp h
    rw [propertyBlanks, collectionsIn, List.map_append, ih hps]
    exact congrArg (· ++ _) ht

/-- If all lists have one cell, the keys of collections are what is written without a label. -/
theorem blanks_tree {t : Tree} (h : ∀ e ∈ t.collections, e.2.form = .list → e.2.triples.length = 1) :
    t.blanks = t.collections.map Prod.fst := by
  induction t using Tree.induction with
  | term n => rfl
  | anonymous n => rfl
  | list cells ih =>
    have one : cells.length = 1 := by
      have := h _ (by rw [Tree.collections]; exact List.mem_cons_self) rfl
      simpa [Collection.list, firstTriples] using this
    obtain ⟨⟨c, t⟩, rfl⟩ := List.length_eq_one_iff.mp one
    have inner : t.blanks = t.collections.map Prod.fst := by
      refine ih (c, t) List.mem_cons_self fun e he => h e ?_
      rw [Tree.collections, collectionsIn, collectionsIn, List.append_nil]
      exact List.mem_cons_of_mem _ he
    rw [Tree.blanks, cellBlanks, cellBlanks, inner, Tree.collections, collectionsIn, collectionsIn,
      List.append_nil, List.append_nil]
    rfl
  | brackets n ps ih =>
    rw [Tree.blanks, Tree.collections, List.map_cons]
    refine congrArg (n :: ·) (propertyBlanks_eq fun e he => ih e he fun c hc => h c ?_)
    rw [Tree.collections]
    exact List.mem_cons_of_mem _ (mem_collectionsIn he hc)

theorem blanks_block {b : Block}
    (h : ∀ e ∈ b.collections, e.2.form = .list → e.2.triples.length = 1) :
    b.blanks = b.collections.map Prod.fst := by
  have properties (ps : List (Node × Tree))
      (h : ∀ e ∈ collectionsIn ps, e.2.form = .list → e.2.triples.length = 1) :
      propertyBlanks ps = (collectionsIn ps).map Prod.fst :=
    propertyBlanks_eq fun e he => blanks_tree fun c hc => h c (mem_collectionsIn he hc)
  cases b with
  | single t => rfl
  | grouped s ps =>
    cases s with
    | named n => exact properties ps h
    | anonymous n =>
      rw [Block.blanks, Block.collections, List.map_cons]
      exact congrArg (n :: ·) (properties ps fun e he => h e (List.mem_cons_of_mem _ he))

/-- What a laid out block writes without a label are the keys of its collections. -/
theorem IsLayout.blanks_block {g : Graph} {r r' : Registry} {bs : List Block} (h : IsLayout g r bs r')
    (hs : Settled g r) {b : Block} (hb : b ∈ bs) : b.blanks = b.collections.map Prod.fst := by
  refine Turtle.blanks_block fun e he form => ?_
  obtain ⟨c, hk, shows⟩ := h.laid.shows e (List.mem_flatMap.mpr ⟨b, hb, he⟩)
  obtain ⟨l, hl⟩ := hs.inlinable e.1 c hk
  obtain ⟨x, hx⟩ := hl.list (shows.form.symm.trans form)
  rw [shows.triples.length_eq, hx]
  rfl

theorem IsLayout.blanks_eq {g : Graph} {r r' : Registry} {bs : List Block} (h : IsLayout g r bs r')
    (hs : Settled g r) :
    bs.flatMap Block.blanks = (bs.flatMap Block.collections).map Prod.fst := by
  rw [List.map_flatMap]
  exact List.flatMap_congr fun b hb => h.blanks_block hs hb

theorem IsLayout.isFaithful {g : Graph} {r r' : Registry} {bs : List Block} (h : IsLayout g r bs r')
    (hs : Settled g r) : IsFaithful g bs := by
  have blanks := h.blanks_eq hs
  have key {x : Node} (hx : x ∈ bs.flatMap Block.blanks) : r.contains x = true := by
    rw [blanks] at hx
    exact Registry.mem_keys.mp ((h.keys_perm hs).mem_iff.mp hx)
  refine ⟨h.triples_perm_graph hs, fun b hb => ?_, blanks ▸ h.nodup_keys, fun x hx => ?_,
    fun b hb x hx hk => ?_, fun b hb x hx hk => ?_⟩
  · obtain ⟨t, ht, e⟩ := h.exists_unclaimed_of_block hb
    refine List.ne_nil_of_mem ((h.block b hb).mem_iff.mpr (List.mem_filter.mpr ⟨ht, ?_⟩))
    exact decide_eq_true e
  · obtain ⟨c, l, hc, hl⟩ := hs.exists_inlinable (key hx)
    exact hl.found.blank
  · obtain ⟨rfl, none⟩ := Block.of_subjectNames hx
    have := h.unnamed_of_key hs hb (key hk)
    rw [none] at this
    exact List.not_mem_nil this
  · exact h.not_objectName hs (key hk) (List.mem_flatMap.mpr ⟨b, hb, hx⟩)

theorem isFaithful_singles (g : Graph) : IsFaithful g (g.toList.map .single) := by
  have blanks : (g.toList.map Block.single).flatMap Block.blanks = [] := by
    simp [List.flatMap_map, Block.blanks]
  refine ⟨?_, ?_, ?_, ?_, ?_, ?_⟩
  · rw [List.flatMap_map, show (fun t => (Block.single t).triples) = fun t => [t] from rfl,
      List.flatMap_singleton']
  · intro b hb
    obtain ⟨t, -, rfl⟩ := List.mem_map.mp hb
    exact List.cons_ne_nil _ _
  · rw [blanks]
    exact .nil
  · simp [blanks]
  · simp [blanks]
  · simp [blanks]

/-- The blocks of a document are faithful at every level. -/
theorem isFaithful_layOut {o : Options} {g : Graph} {d : Document} (h : layOut o g = .ok d) :
    IsFaithful g d.blocks := by
  obtain ⟨r, hr, rfl⟩ := exists_of_map_eq_ok h
  have hs := settled_collectionsFor hr
  dsimp only
  unfold layBlocks
  split
  · have layout := isLayout_laySubjects (g := g) hs.isProper
    dsimp only
    rw [layout.remaining_eq_nil hs, List.append_nil]
    exact layout.isFaithful hs
  next groups =>
    have collects : o.level.collects = false :=
      Bool.eq_false_iff.mpr fun h => groups (Level.groups_of_collects h)
    rw [collectionsFor, collects] at hr
    obtain rfl := Except.ok.inj hr
    rw [show layRemaining Registry.empty = [] from rfl, List.append_nil]
    exact isFaithful_singles g

/-- What has been written for a graph, or dumped from a store, is read as a graph that is isomorphic to
it. -/
theorem read?_write {lx : Lexicon} {o : Options} {g : Graph} {room : Option Nat} {out : Sink}
    (legal : ∀ t ∈ g.toList, lx.admitsTriple t = true)
    (written : write o g ⟨room, []⟩ = (.ok (), out) ∨
      ∃ (w : Workspace) (s : Store), w.graphOf s = g ∧ w.dump s o ⟨room, []⟩ = (.ok (), out)) :
    ∃ ts, read? lx none out.text = some ts ∧ Isomorphic g.toList ts := by
  have written : write o g ⟨room, []⟩ = (.ok (), out) := by
    rcases written with written | ⟨w, s, rfl, written⟩
    · exact written
    · exact written
  obtain ⟨d, hd, accepted⟩ := write_eq_ok written
  have text : out.text = d.text o := by
    rw [Sink.text, accepted]
    exact Sink.decodeCut_utf8Bytes _
  have faithful := isFaithful_layOut hd
  have prefixes : d.prefixes = o.prefixes.entries := by
    obtain ⟨r, -, rfl⟩ := exists_of_map_eq_ok hd
    rfl
  obtain ⟨ts, read, perm⟩ := read?_text (numbering_of_not_mem faithful.rdfNil_not_mem) prefixes
    (fun b hb x hx => faithful.admits_printed legal hb hx)
    (fun b hb => faithful.isReadable legal (fun _ => numbering_of_not_mem) hb)
    (numbered_numbering faithful.nodup)
  exact ⟨ts, text ▸ read, faithful.isomorphic legal perm⟩

/-- A blank node that is written between brackets is read as another blank node with its property. -/
theorem read?_write_brackets :
    let s := Node.iri "http://example.org/s"
    let p := Node.iri "http://example.org/p"
    let g := Graph.ofList [⟨s, .rdfType, .blank "a"⟩, ⟨.blank "a", p, .string "x"⟩, ⟨.blank "b", p, s⟩]
    ∃ (out : Sink) (ts : List Triple), write {} g ⟨none, []⟩ = (.ok (), out) ∧
      read? .standard none out.text = some ts ∧ Isomorphic g.toList ts := by
  intro s p g
  have tails : Analysis.tails g = [] := by decide
  obtain ⟨d, hd⟩ : ∃ d, layOut {} g = .ok d := by
    rw [layOut, collectionsFor, Graph.collections, Analysis.run_eq, Analysis.findLists, tails]
    exact ⟨_, rfl⟩
  have legal : ∀ t ∈ g.toList, Lexicon.admitsTriple .standard t = true := by decide
  obtain ⟨ts, read, isomorphic⟩ := read?_write legal (.inl (write_unlimited hd []))
  exact ⟨_, ts, write_unlimited hd [], read, isomorphic⟩

end Turtle
end TripleStore
