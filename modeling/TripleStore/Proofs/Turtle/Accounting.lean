import TripleStore.Proofs.Turtle.RoundTrip

/-! # Accounting for triples

A document that has been written accounts for every triple of its graph once: in the block of its
subject, or inside the one collection that claims it. This is said of the written text. It is the heading
followed by the texts of the blocks; each of these denotes the triples and the collections of its block,
and is read as exactly these triples if the nodes of the graph can be read at all. -/
namespace TripleStore.Turtle

/-- The text of a block denotes the triples of its subject and the collections in it, and names only nodes
that fulfil a condition. -/
def Block.IsDenoted (o : Options) (N : Node → Prop) (b : Block) : Prop :=
  DenotesStatement o.prefixes.entries N (b.text o) b.subject b.direct b.collections

/-- The text of a block, behind the heading of its document, is read as the triples of the block. The keys
of the collections become the nodes that a reader draws. -/
def Block.IsReadBack (lx : Lexicon) (o : Options) (d : Document) (b : Block) : Prop :=
  ∃ ts, read? lx none (d.heading ++ (b.text o ++ "\n")) = some ts ∧
    ts.Perm (b.triples.map (Triple.rename (numbering (b.collections.map Prod.fst))))

/-- A document writes a graph with the collections of a registry inline. -/
structure Accounts (o : Options) (g : Graph) (r : Registry) (d : Document) : Prop where
  /-- Every triple of the graph stands in one place. -/
  triples : (d.blocks.flatMap Block.triples).Perm g.toList
  /-- The unclaimed triples stand in the blocks of their subjects. -/
  direct : (d.blocks.flatMap Block.direct).Perm (unclaimed g r.claims)
  subjects : (d.blocks.map Block.subject).Nodup
  /-- The claimed triples stand in the inline collections. -/
  claims : ((d.blocks.flatMap Block.collections).flatMap fun e => e.2.claims).Perm r.claims
  /-- Every collection stands inline once, with its triples. -/
  keys : ((d.blocks.flatMap Block.collections).map Prod.fst).Perm r.keys
  shows : ∀ e ∈ d.blocks.flatMap Block.collections, ∃ c, r.get? e.1 = some c ∧ Shows c e.2
  /-- The text consists of the declarations and of one statement for each block. -/
  prefixes : d.prefixes = o.prefixes.entries
  text : d.text o = d.heading ++ String.join (d.blocks.map fun b => b.text o ++ "\n")
  /-- Each statement denotes the triples of its block, and no label of a key is written. -/
  denoted : ∀ b ∈ d.blocks, b.IsDenoted o (· ∉ r.keys)
  readBack : ∀ lx : Lexicon, (∀ t ∈ g.toList, lx.admitsTriple t = true) →
    ∀ b ∈ d.blocks, b.IsReadBack lx o d

/-- With collections, the blocks of a document are those of the subjects, and nothing remains to be written
behind them. -/
structure IsCollected (o : Options) (g : Graph) (r : Registry) (d : Document) : Prop where
  settled : Settled g r
  prefixes : d.prefixes = o.prefixes.entries
  blocks : d.blocks = (laySubjects g r).1
  remaining : layRemaining (laySubjects g r).2 = []
  layout : IsLayout g r d.blocks (laySubjects g r).2

theorem isCollected_layOut {o : Options} {g : Graph} {d : Document} (level : o.level.collects = true)
    (h : layOut o g = .ok d) : ∃ r, collectionsFor o.level g = .ok r ∧ IsCollected o g r d := by
  obtain ⟨r, hr, rfl⟩ := exists_of_map_eq_ok h
  have hs := settled_collectionsFor hr
  have layout := isLayout_laySubjects (g := g) hs.isProper
  have blocks : layBlocks o.level g r = (laySubjects g r).1 := by
    rw [layBlocks, if_pos (Level.groups_of_collects level)]
    dsimp only
    rw [layout.remaining_eq_nil hs, List.append_nil]
  exact ⟨r, hr, hs, rfl, blocks, layout.remaining_eq_nil hs, blocks ▸ layout⟩

namespace IsCollected
variable {o : Options} {g : Graph} {r : Registry} {d : Document}

theorem isDenoted (h : IsCollected o g r d) {N : Node → Prop} {b : Block} (hb : b ∈ d.blocks)
    (printed : ∀ n ∈ b.printed, N n) : b.IsDenoted o N :=
  denotes_block ((h.layout.isFaithful h.settled).direct b hb) printed

theorem isReadBack (h : IsCollected o g r d) {lx : Lexicon}
    (legal : ∀ t ∈ g.toList, lx.admitsTriple t = true) {b : Block} (hb : b ∈ d.blocks) :
    b.IsReadBack lx o d := by
  rw [Block.IsReadBack, ← h.layout.blanks_block h.settled hb]
  exact (h.layout.isFaithful h.settled).read?_block legal h.prefixes hb

theorem accounts (h : IsCollected o g r d) (legal : ∀ t ∈ g.toList, t.isLegal = true) :
    Accounts o g r d where
  triples := h.layout.triples_perm_graph h.settled
  direct := h.layout.direct_perm
  subjects := h.layout.nodup_subjects
  claims := h.layout.claims_perm h.settled
  keys := h.layout.keys_perm h.settled
  shows := h.layout.laid.shows
  prefixes := h.prefixes
  text := d.text_eq o
  denoted _ hb := h.isDenoted hb fun _ hn hk =>
    h.layout.not_printed h.settled legal (Registry.mem_keys.mp hk) hb hn
  readBack _ admitted _ hb := h.isReadBack admitted hb

end IsCollected

/-- With collections, what is written is the text of the blocks of subjects: these account for every
triple, and nothing remains to be written behind them. -/
theorem write_accounts {o : Options} {g : Graph} {sink out : Sink}
    (legal : ∀ t ∈ g.toList, t.isLegal = true) (level : o.level.collects = true)
    (written : write o g sink = (.ok (), out)) :
    ∃ (r : Registry) (d : Document), collectionsFor o.level g = .ok r ∧ layOut o g = .ok d ∧
      out.accepted = sink.accepted ++ utf8Bytes (d.text o) ∧ d.blocks = (laySubjects g r).1 ∧
      layRemaining (laySubjects g r).2 = [] ∧ Accounts o g r d := by
  obtain ⟨d, hd, accepted⟩ := write_eq_ok written
  obtain ⟨r, hr, h⟩ := isCollected_layOut level hd
  exact ⟨r, d, hr, hd, accepted, h.blocks, h.remaining, h.accounts legal⟩

/-- Brackets and a list with a nested blank node are accounted for, and are read back. -/
theorem write_accounts_nested :
    let s := Node.iri "ex:s"
    let g := Graph.ofList [⟨s, .iri "ex:p", .blank "a"⟩, ⟨.blank "a", .iri "ex:q", s⟩,
      ⟨s, .iri "ex:p", .blank "c"⟩, ⟨.blank "c", .rdfFirst, .blank "d"⟩, ⟨.blank "c", .rdfRest, .rdfNil⟩]
    ∃ (r : Registry) (d : Document), collectionsFor .more g = .ok r ∧
      write {} g ⟨none, []⟩ = (.ok (), ⟨none, utf8Bytes (d.text {})⟩) ∧
      (d.blocks.flatMap Block.triples).Perm g.toList ∧
      ((d.blocks.flatMap Block.collections).map Prod.fst).Perm r.keys ∧
      ∀ b ∈ d.blocks, b.IsDenoted {} (· ∉ r.keys) ∧ b.IsReadBack .standard {} d := by
  intro s g
  have list : walkList g (.blank "c") = .ok (some [⟨.blank "c", .rdfFirst, .blank "d"⟩]) := by
    have firsts : g.withPredicate .rdfFirst = [⟨.blank "c", .rdfFirst, .blank "d"⟩] := by decide
    have first : g.withSubjectPredicate (.blank "c") .rdfFirst =
        [⟨.blank "c", .rdfFirst, .blank "d"⟩] := by decide
    have rest : g.withPredicateObject .rdfRest (.blank "c") = [] := by decide
    rw [walkList, walkFrom, firsts, first, rest]
    rfl
  have tails : Analysis.tails g = [.blank "c"] := by decide
  obtain ⟨d, hd⟩ : ∃ d, layOut {} g = .ok d := by
    rw [layOut, collectionsFor, Graph.collections, Analysis.run_eq, Analysis.findLists, tails,
      Analysis.addLists, list]
    exact ⟨_, rfl⟩
  have legal : ∀ t ∈ g.toList, t.isLegal = true := by decide
  have admitted : ∀ t ∈ g.toList, Lexicon.admitsTriple .standard t = true := by decide
  obtain ⟨r, d', hr, hd', -, -, -, accounts⟩ := write_accounts legal rfl (write_unlimited hd [])
  obtain rfl : d' = d := Except.ok.inj (hd'.symm.trans hd)
  exact ⟨r, d', hr, write_unlimited hd [], accounts.triples, accounts.keys,
    fun b hb => ⟨accounts.denoted b hb, accounts.readBack .standard admitted b hb⟩⟩

end TripleStore.Turtle
