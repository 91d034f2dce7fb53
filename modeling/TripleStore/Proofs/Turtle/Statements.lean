import TripleStore.Proofs.Turtle.Reading

/-! # Reading statements

A reader that takes the tokens of a whole document learns its namespaces and then reads block after
block. -/
namespace TripleStore.Turtle

/-- The blank nodes that a block writes without their labels, in the order in which they begin. -/
def Block.blanks : Block → List Node
  | .single _ => []
  | .grouped (.named _) ps => propertyBlanks ps
  | .grouped (.anonymous x) ps => x :: propertyBlanks ps

/-- A block can be read: its names stay themselves under the renaming and are admitted, and it has a
property. -/
structure IsReadable (lx : Lexicon) (f : Node → Node) (b : Block) : Prop where
  subject : ∀ x ∈ b.subjectNames, (f x = x ∧ lx.admits x = true) ∧ (x.isIri || x.isBlank) = true
  verbs : ∀ t ∈ b.shown, IsVerbal lx t.predicate
  objects : ∀ x ∈ b.objectNames, f x = x ∧ lx.admits x = true
  direct : b.direct ≠ []

section
variable {o : Options} {f : Node → Node} {lx : Lexicon} {n : Nat} {vs : List Triple}

theorem run_named {x : Node} (hx : lx.admits x = true) (hk : (x.isIri || x.isBlank) = true)
    {r : Reader} (he : r.expect = .statement) (h : Has lx o.prefixes.entries r n [] vs) :
    ∃ r', r.run (termTokens o x) = some r' ∧ r'.expect = .verb x ∧
      Has lx o.prefixes.entries r' n [] vs := by
  refine ⟨(r.await (.verb x)).deliver, ?_, rfl, (h.await _).deliver⟩
  cases x with
  | iri v =>
    refine run_cons ?_ []
    have iri := iri?_iriToken h hx
    rw [Reader.take, he]
    rcases iriToken_cases o v with ⟨s, l, e⟩ | e
    · rw [e] at iri ⊢
      simp [Reader.takeStatement, iri]
    · rw [e] at iri ⊢
      simp [Reader.takeStatement, iri]
  | blank l => exact run_cons (by rw [Reader.take, he]; rfl) []
  | literal l => simp [Node.isIri, Node.isBlank] at hk
  | var v => simp [Node.isIri, Node.isBlank] at hk

theorem run_anonymous {x : Node} (hx : f x = Reader.anonymousNode n) {r : Reader}
    (he : r.expect = .statement) (h : Has lx o.prefixes.entries r n [] vs) :
    ∃ r', r.run [.symbol .openBracket, .symbol .closeBracket] = some r' ∧ r'.expect = .verb (f x) ∧
      Has lx o.prefixes.entries r' (n + 1) [] vs := by
  let r₁ := (r.await .inSubjectBrackets).deliver
  have h₁ : Has lx o.prefixes.entries r₁ n [] vs := (h.await _).deliver
  have opens : r.take (.symbol .openBracket) = some (r.await .inSubjectBrackets) := by
    rw [Reader.take, he]
    rfl
  have closes : r₁.take (.symbol .closeBracket) = some (r₁.draw.2.await (.verb r₁.draw.1)) := rfl
  refine ⟨_, (run_cons opens _).trans (run_cons closes []), ?_, (h₁.draw.await _).deliver⟩
  rw [hx, ← h₁.fst_draw]
  rfl

theorem run_statement {s : Node} {ps : List (Node × Tree)} (hne : ps ≠ [])
    (trees : ∀ e ∈ ps, Reads lx o f e.2) (verbs : ∀ e ∈ ps, IsVerbal lx e.1) {r : Reader}
    (he : r.expect = .verb (f s)) (h : Has lx o.prefixes.entries r n [] vs)
    (hn : Numbered f n (propertyBlanks ps)) :
    ∃ r', r.run (Tree.propertiesTokens o none ps ++ [.symbol .dot]) = some r' ∧
      r'.expect = .statement ∧ Has lx o.prefixes.entries r' (n + (propertyBlanks ps).length) []
        (renamedProperties f s ps ++ vs) := by
  cases ps with
  | nil => exact absurd rfl hne
  | cons e ps =>
    obtain ⟨p, t⟩ := e
    obtain ⟨verb, hverb, -, all⟩ := takeVerb_verbTokens o (verbs (p, t) List.mem_cons_self).1
      (verbs (p, t) List.mem_cons_self).2
    have first : r.take verb = some (r.await (.object (.property (f s) p))) := by
      rw [Reader.take, he]
      exact all _ _ _ _ (f s) h
    obtain ⟨r₂, q, properties, behind⟩ := run_properties
      (fun e he => trees e (List.mem_cons_of_mem _ he)) (fun e he => verbs e (List.mem_cons_of_mem _ he))
      (trees (p, t) List.mem_cons_self) (r := (r.await (.object (.property (f s) p))).deliver) rfl
      (h.await _).deliver hn
    obtain ⟨r₃, h₃, take⟩ := take_behind (t := .symbol .dot) behind rfl
    have dot : r₃.takeAfterObject (.property (f s) q) (.symbol .dot) = some (r₃.await .statement) := by
      simp only [Reader.takeAfterObject, Reader.takeEnd, h₃.stack]
    refine ⟨(r₃.await .statement).deliver, ?_, rfl, (h₃.await _).deliver⟩
    rw [Tree.propertiesTokens, hverb, List.append_assoc, List.append_assoc, List.singleton_append,
      run_cons first, ← List.append_assoc, run_append, properties]
    exact run_cons (take.trans dot) []

theorem run_block (hnil : f .rdfNil = .rdfNil) {b : Block} (hb : IsReadable lx f b) {r : Reader}
    (he : r.expect = .statement) (h : Has lx o.prefixes.entries r n [] vs)
    (hn : Numbered f n b.blanks) :
    ∃ r', r.run (b.tokens o) = some r' ∧ r'.expect = .statement ∧
      Has lx o.prefixes.entries r' (n + b.blanks.length) [] (b.triples.map (Triple.rename f) ++ vs) := by
  cases b with
  | single t =>
    obtain ⟨⟨hs, admitted⟩, kind⟩ := hb.subject t.subject (List.mem_singleton_self _)
    obtain ⟨ho, object⟩ := hb.objects t.object (List.mem_singleton_self _)
    obtain ⟨r₁, subject, he₁, h₁⟩ := run_named admitted kind he h
    have trees : ∀ e ∈ [(t.predicate, Tree.term t.object)], Reads lx o f e.2 := by
      intro e he
      rw [List.mem_singleton.mp he]
      exact reads_tree hnil _ (fun x hx => by rw [List.mem_singleton.mp hx]; exact ⟨ho, object⟩)
        (by simp [Tree.collections])
    have verbs : ∀ e ∈ [(t.predicate, Tree.term t.object)], IsVerbal lx e.1 := by
      intro e he
      rw [List.mem_singleton.mp he]
      exact hb.verbs t (by simp [Block.shown, Block.direct])
    obtain ⟨r₂, statement, he₂, h₂⟩ := run_statement (s := t.subject) (List.cons_ne_nil _ _) trees
      verbs (hs.symm ▸ he₁) h₁ trivial
    refine ⟨r₂, ?_, he₂, h₂⟩
    rw [Block.tokens, List.append_assoc, List.append_assoc, run_append, subject]
    simpa [Tree.propertiesTokens, Tree.tokens] using statement
  | grouped s ps =>
    have trees : ∀ e ∈ ps, Reads lx o f e.2 := by
      intro e he
      apply reads_tree hnil e.2
      · exact fun x hx => hb.objects x (mem_namedIn he hx)
      · exact fun c hc u hu => hb.verbs u (Block.mem_shown_of_inline he hc hu)
    have verbs : ∀ e ∈ ps, IsVerbal lx e.1 := fun e he => hb.verbs _ (Block.mem_shown_of_property he)
    have hne : ps ≠ [] := by
      rintro rfl
      exact hb.direct rfl
    cases s with
    | named x =>
      obtain ⟨⟨hx, admitted⟩, kind⟩ := hb.subject x (List.mem_singleton_self _)
      obtain ⟨r₁, subject, he₁, h₁⟩ := run_named admitted kind he h
      obtain ⟨r₂, statement, he₂, h₂⟩ := run_statement (s := x) hne trees verbs (hx.symm ▸ he₁) h₁ hn
      refine ⟨r₂, ?_, he₂, ?_⟩
      · rw [Block.tokens, List.append_assoc, run_append, Subject.tokens, subject]
        exact statement
      · rw [Block.triples, List.map_append]
        exact h₂
    | anonymous x =>
      obtain ⟨hx, hn⟩ := hn
      obtain ⟨r₁, subject, he₁, h₁⟩ := run_anonymous hx he h
      obtain ⟨r₂, statement, he₂, h₂⟩ := run_statement (s := x) hne trees verbs he₁ h₁ hn
      refine ⟨r₂, ?_, he₂, ?_⟩
      · rw [Block.tokens, List.append_assoc, run_append, Subject.tokens, subject]
        exact statement
      · have number : n + 1 + (propertyBlanks ps).length =
            n + (Block.grouped (.anonymous x) ps).blanks.length := by
          rw [Block.blanks, List.length_cons]
          omega
        rw [← number, Block.triples, List.map_append]
        exact h₂

theorem run_blocks (hnil : f .rdfNil = .rdfNil) {bs : List Block} (hb : ∀ b ∈ bs, IsReadable lx f b)
    {r : Reader} (he : r.expect = .statement) (h : Has lx o.prefixes.entries r n [] vs)
    (hn : Numbered f n (bs.flatMap Block.blanks)) :
    ∃ r', r.run (bs.flatMap (Block.tokens o)) = some r' ∧ r'.expect = .statement ∧
      Has lx o.prefixes.entries r' (n + (bs.flatMap Block.blanks).length) []
        ((bs.flatMap Block.triples).map (Triple.rename f) ++ vs) := by
  induction bs generalizing r n vs with
  | nil => exact ⟨r, rfl, he, h⟩
  | cons b bs ih =>
    obtain ⟨hb, hbs⟩ := List.forall_mem_cons.mp hb
    rw [List.flatMap_cons, numbered_append] at hn
    obtain ⟨r₁, block, he₁, h₁⟩ := run_block hnil hb he h hn.1
    obtain ⟨r₂, blocks, he₂, h₂⟩ := ih hbs he₁ h₁ hn.2
    refine ⟨r₂, ?_, he₂, ?_⟩
    · rw [List.flatMap_cons, run_append, block]
      exact blocks
    · rw [Nat.add_assoc, ← List.length_append] at h₂
      refine h₂.perm ?_
      rw [List.flatMap_cons, List.map_append, List.append_assoc]
      exact List.perm_append_comm_assoc _ _ _

end

theorem run_declaration {e : String × String} (hi : Iri.isValid e.2 = true)
    {known : List (String × String)} (fresh : e.1 ∉ known.map Prod.fst) {r : Reader}
    (he : r.expect = .statement) (h : Has lx known r 0 [] []) :
    ∃ r', r.run (declarationTokens e) = some r' ∧ r'.expect = .statement ∧
      Has lx (known ++ [e]) r' 0 [] [] := by
  obtain ⟨name, iri⟩ := e
  let r₁ := (r.await (.declaredName true)).deliver
  let r₂ := (r₁.await (.declaredIri name true)).deliver
  let r₃ := ({ r₂ with namespaces := Association.put name iri r₂.namespaces }.await
    .directiveEnd).deliver
  have keyword : r.take (.tag "prefix") = some (r.await (.declaredName true)) := by
    rw [Reader.take, he]
    rfl
  have named : r₁.take (.name name "" false) = some (r₁.await (.declaredIri name true)) := rfl
  have resolved : Iri.resolve? r₂.base iri = some iri := by
    rw [show r₂.base = none from h.base, Iri.resolve?, if_pos hi]
  have declared : r₂.take (.iri iri) =
      some ({ r₂ with namespaces := Association.put name iri r₂.namespaces }.await
        .directiveEnd) := by
    rw [Reader.take]
    simp only [r₂, Reader.await, Reader.deliver] at resolved ⊢
    rw [resolved]
    rfl
  have dot : r₃.take (.symbol .dot) = some (r₃.await .statement) := rfl
  refine ⟨(r₃.await .statement).deliver, ?_, rfl, ?_⟩
  · exact (run_cons keyword _).trans ((run_cons named _).trans ((run_cons declared _).trans
      (run_cons dot [])))
  · have h₂ : Has lx known r₂ 0 [] [] := (h.await (.declaredName true)).deliver.await _ |>.deliver
    have put : Association.put name iri r₂.namespaces = known ++ [(name, iri)] := by
      rw [h₂.namespaces, Association.put_of_not_mem iri fresh]
    have extended : Has lx (known ++ [(name, iri)])
        { r₂ with namespaces := Association.put name iri r₂.namespaces } 0 [] [] :=
      { h₂ with namespaces := put }
    exact ((extended.await _).deliver.await _).deliver

theorem run_declarations {es : List (String × String)} (hi : ∀ e ∈ es, Iri.isValid e.2 = true)
    {known : List (String × String)} (hn : ((known ++ es).map Prod.fst).Nodup) {r : Reader}
    (he : r.expect = .statement) (h : Has lx known r 0 [] []) :
    ∃ r', r.run (es.flatMap declarationTokens) = some r' ∧ r'.expect = .statement ∧
      Has lx (known ++ es) r' 0 [] [] := by
  induction es generalizing known r with
  | nil => exact ⟨r, rfl, he, by rwa [List.append_nil]⟩
  | cons e es ih =>
    obtain ⟨hiri, hes⟩ := List.forall_mem_cons.mp hi
    have fresh : e.1 ∉ known.map Prod.fst := by
      intro hk
      rw [List.map_append, List.nodup_append] at hn
      exact hn.2.2 e.1 hk e.1 List.mem_cons_self rfl
    obtain ⟨r₁, declaration, he₁, h₁⟩ := run_declaration hiri fresh he h
    obtain ⟨r', rest, he', h'⟩ := ih hes (by simpa using hn) he₁ h₁
    refine ⟨r', ?_, he', by simpa using h'⟩
    rw [List.flatMap_cons, run_append, declaration]
    exact rest

theorem completed_run {r r' : Reader} {ts : List Token} (h : r.run ts = some r')
    (hr : r.completed = []) : r'.completed = [] := by
  induction ts generalizing r with
  | nil => exact Option.some.inj h ▸ hr
  | cons t ts ih =>
    obtain ⟨r₁, -, h⟩ := Option.bind_eq_some_iff.mp h
    exact ih h rfl

/-- The text of a document is read as its triples. -/
theorem read?_text {lx : Lexicon} {o : Options} {f : Node → Node} (hnil : f .rdfNil = .rdfNil)
    {d : Document} (prefixes : d.prefixes = o.prefixes.entries)
    (admitted : ∀ b ∈ d.blocks, ∀ x ∈ b.printed, lx.admits x = true)
    (readable : ∀ b ∈ d.blocks, IsReadable lx f b)
    (numbered : Numbered f 0 (d.blocks.flatMap Block.blanks)) :
    ∃ ts, read? lx none (d.text o) = some ts ∧
      ts.Perm ((d.blocks.flatMap Block.triples).map (Triple.rename f)) := by
  have tokens := tokens?_text o (d := d) (fun e he => o.prefixes.valid e (prefixes ▸ he)) admitted
  have start : Has lx [] { lexicon := lx, base := none } 0 [] [] := ⟨rfl, rfl, rfl, rfl, rfl, .nil⟩
  obtain ⟨r₁, declarations, he₁, h₁⟩ := run_declarations
    (fun e he => (o.prefixes.valid e he).2) (by exact o.prefixes.nodup) rfl start
  obtain ⟨r₂, blocks, he₂, h₂⟩ := run_blocks hnil readable he₁ h₁ numbered
  have run : Reader.run { lexicon := lx, base := none } (d.tokens o) = some r₂ := by
    rw [Document.tokens, prefixes, run_append, declarations]
    exact blocks
  have delivered := h₂.triples
  rw [completed_run run rfl, List.append_nil, List.append_nil] at delivered
  refine ⟨r₂.triples, ?_, delivered⟩
  rw [read?, tokens, Option.bind_some, run, Option.bind_some, Reader.finish?, if_pos he₂]

end TripleStore.Turtle
