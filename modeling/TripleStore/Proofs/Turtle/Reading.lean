import TripleStore.Proofs.Collection.Claims
import TripleStore.Proofs.Turtle.Lexing
import TripleStore.Turtle.Reader

/-! # Reading documents

A reader that takes the tokens of a laid out document reads its triples, in some order. Blank nodes that
have no name in the document are numbered in the order in which they begin, which is that of
`Tree.blanks`. -/
namespace TripleStore.Turtle
variable {lx : Lexicon}

/-- What the reader knows, apart from what it expects: it has a lexicon and no base, knows the namespaces
`ns`, has met `n` blank nodes without label, is inside `stack`, and has read the triples `us` in some
order. -/
structure Has (lx : Lexicon) (ns : List (String × String)) (r : Reader) (n : Nat) (stack : List Frame)
    (us : List Triple) : Prop where
  lexicon : r.lexicon = lx
  base : r.base = none
  namespaces : r.namespaces = ns
  anonymous : r.anonymous = n
  stack : r.stack = stack
  triples : (r.triples ++ r.completed).Perm us

namespace Has
variable {ns : List (String × String)} {r : Reader} {n : Nat} {stack : List Frame} {us : List Triple}

theorem perm (h : Has lx ns r n stack us) {us' : List Triple} (p : us.Perm us') : Has lx ns r n stack us' :=
  { h with triples := h.triples.trans p }

theorem deliver (h : Has lx ns r n stack us) : Has lx ns r.deliver n stack us :=
  { h with triples := by simpa [Reader.deliver] using h.triples }

theorem await (h : Has lx ns r n stack us) (e : Expect) : Has lx ns (r.await e) n stack us := { h with }

theorem complete (h : Has lx ns r n stack us) (t : Triple) : Has lx ns (r.complete t) n stack (t :: us) :=
  { h with triples := List.perm_middle.trans (h.triples.cons t) }

theorem put (h : Has lx ns r n stack us) (place : Place) (o : Node) :
    Has lx ns (r.put place o) n stack (place.triple o :: us) :=
  { h.complete (place.triple o) with }

theorem draw (h : Has lx ns r n stack us) : Has lx ns r.draw.2 (n + 1) stack us :=
  { h with anonymous := congrArg (· + 1) h.anonymous }

theorem enter (h : Has lx ns r n stack us) (f : Frame) : Has lx ns (r.enter f) n (f :: stack) us :=
  { h with stack := congrArg (f :: ·) h.stack }

theorem leave {f : Frame} (h : Has lx ns r n (f :: stack) us) : Has lx ns { r with stack } n stack us :=
  { h with stack := rfl }

end Has

theorem run_append (r : Reader) (ts us : List Token) :
    r.run (ts ++ us) = (r.run ts).bind (·.run us) := by
  induction ts generalizing r with
  | nil => rfl
  | cons t ts ih =>
    rw [List.cons_append, Reader.run, Reader.run, Option.bind_assoc]
    cases r.take t with
    | none => rfl
    | some r' => exact ih r'.deliver

theorem run_cons {r r' : Reader} {t : Token} (h : r.take t = some r') (ts : List Token) :
    r.run (t :: ts) = r'.deliver.run ts := by
  rw [Reader.run, h]
  rfl

/-- A reader that stands behind an object. A string is not complete before the next token. -/
def Behind (lx : Lexicon) (ns : List (String × String)) (place : Place) (r : Reader) (n : Nat)
    (stack : List Frame) (us : List Triple) : Prop :=
  r.expect = .afterObject place ∧ Has lx ns r n stack us ∨
    ∃ v vs, r.expect = .afterString v place ∧ Has lx ns r n stack vs ∧
      us.Perm (place.triple (.string v) :: vs)

/-- Whether a token can follow a string without being part of the same literal. -/
def isApart : Token → Bool
  | .tag _ => false
  | .symbol .datatype => false
  | _ => true

theorem Behind.perm {ns : List (String × String)} {place : Place} {r : Reader} {n : Nat}
    {stack : List Frame} {us us' : List Triple} (h : Behind lx ns place r n stack us)
    (p : us.Perm us') : Behind lx ns place r n stack us' := by
  rcases h with ⟨he, h⟩ | ⟨v, vs, he, h, hp⟩
  · exact .inl ⟨he, h.perm p⟩
  · exact .inr ⟨v, vs, he, h, p.symm.trans hp⟩

/-- Behind an object the reader goes on in the same way whether a string was pending or not. -/
theorem take_behind {ns : List (String × String)} {place : Place} {r : Reader} {n : Nat}
    {stack : List Frame} {us : List Triple} (h : Behind lx ns place r n stack us) {t : Token}
    (ht : isApart t = true) :
    ∃ r₀, Has lx ns r₀ n stack us ∧ r.take t = r₀.takeAfterObject place t := by
  rcases h with ⟨he, h⟩ | ⟨v, vs, he, h, hp⟩
  · exact ⟨r, h, by rw [Reader.take, he]⟩
  · refine ⟨r.put place (.string v), (h.put place _).perm hp.symm, ?_⟩
    rw [Reader.take, he]
    dsimp only
    split
    · simp [isApart] at ht
    · simp [isApart] at ht
    · rfl

/-! ### Steps -/

namespace Has
variable {ns : List (String × String)} {r : Reader} {n : Nat} {stack : List Frame} {us : List Triple}

theorem fst_draw (h : Has lx ns r n stack us) : r.draw.1 = Reader.anonymousNode n :=
  congrArg Reader.anonymousNode h.anonymous

theorem emptyBrackets (h : Has lx ns r n stack us) {place : Place} (he : r.expect = .inBrackets place) :
    ∃ r', r.take (.symbol .closeBracket) = some r' ∧ r'.expect = .afterObject place ∧
      Has lx ns r' (n + 1) stack (place.triple (Reader.anonymousNode n) :: us) := by
  refine ⟨r.draw.2.put place r.draw.1, ?_, rfl, h.fst_draw ▸ h.draw.put place _⟩
  rw [Reader.take, he]
  exact if_pos rfl

theorem openBrackets (h : Has lx ns r n stack us) {place : Place} (he : r.expect = .inBrackets place)
    {t : Token} (ht : t ≠ .symbol .closeBracket) :
    ∃ r', r.take t = r'.takeVerb (Reader.anonymousNode n) t ∧
      Has lx ns r' (n + 1) (.brackets place :: stack) us := by
  refine ⟨r.draw.2.enter (.brackets place), ?_, h.draw.enter _⟩
  rw [Reader.take, he, ← h.fst_draw]
  exact if_neg ht

theorem closeBrackets (h : Has lx ns r n (.brackets outer :: stack) us) (s p : Node) :
    ∃ r', r.takeAfterObject (.property s p) (.symbol .closeBracket) = some r' ∧
      r'.expect = .afterObject outer ∧ Has lx ns r' n stack (outer.triple s :: us) := by
  refine ⟨{ r with stack }.put outer s, ?_, rfl, h.leave.put outer s⟩
  simp only [Reader.takeAfterObject, Reader.takeEnd, h.stack]

theorem emptyList (h : Has lx ns r n stack us) {place : Place} (he : r.expect = .inList place) :
    ∃ r', r.take (.symbol .closeList) = some r' ∧ r'.expect = .afterObject place ∧
      Has lx ns r' n stack (place.triple .rdfNil :: us) := by
  refine ⟨r.put place .rdfNil, ?_, rfl, h.put place _⟩
  rw [Reader.take, he]
  exact if_pos rfl

theorem openList (h : Has lx ns r n stack us) {place : Place} (he : r.expect = .inList place)
    {t : Token} (ht : t ≠ .symbol .closeList) :
    ∃ r', r.take t = r'.takeObject (.item (Reader.anonymousNode n)) t ∧
      Has lx ns r' (n + 1) (.list place :: stack) (place.triple (Reader.anonymousNode n) :: us) := by
  refine ⟨(r.draw.2.put place r.draw.1).enter (.list place), ?_, ?_⟩
  · rw [Reader.take, he, ← h.fst_draw]
    exact if_neg ht
  · exact h.fst_draw ▸ (h.draw.put place _).enter _

theorem nextItem (h : Has lx ns r n stack us) (cell : Node) {t : Token} (ht : t ≠ .symbol .closeList) :
    ∃ r', r.takeAfterObject (.item cell) t = r'.takeObject (.item (Reader.anonymousNode n)) t ∧
      Has lx ns r' (n + 1) stack (⟨cell, .rdfRest, Reader.anonymousNode n⟩ :: us) := by
  refine ⟨r.draw.2.complete ⟨cell, .rdfRest, r.draw.1⟩, ?_, h.fst_draw ▸ h.draw.complete _⟩
  rw [Reader.takeAfterObject, ← h.fst_draw]
  exact if_neg ht

theorem closeList (h : Has lx ns r n (.list outer :: stack) us) (cell : Node) :
    ∃ r', r.takeAfterObject (.item cell) (.symbol .closeList) = some r' ∧
      r'.expect = .afterObject outer ∧ Has lx ns r' n stack (⟨cell, .rdfRest, .rdfNil⟩ :: us) := by
  have closed := h.complete ⟨cell, .rdfRest, .rdfNil⟩
  refine ⟨{ r.complete ⟨cell, .rdfRest, .rdfNil⟩ with stack }.await (.afterObject outer), ?_, rfl,
    closed.leave.await _⟩
  simp only [Reader.takeAfterObject]
  rw [if_pos trivial]
  simp only [closed.stack]

theorem comma (h : Has lx ns r n stack us) (s p : Node) :
    ∃ r', r.takeAfterObject (.property s p) (.symbol .comma) = some r' ∧
      r'.expect = .object (.property s p) ∧ Has lx ns r' n stack us :=
  ⟨_, rfl, rfl, h.await _⟩

theorem semicolon (h : Has lx ns r n stack us) (s p : Node) :
    ∃ r', r.takeAfterObject (.property s p) (.symbol .semicolon) = some r' ∧
      r'.expect = .verbOrEnd s ∧ Has lx ns r' n stack us :=
  ⟨_, rfl, rfl, h.await _⟩

end Has

/-! ### Terms -/

theorem iri?_iriToken {o : Options} {r : Reader} {n : Nat} {stack : List Frame} {us : List Triple}
    (h : Has lx o.prefixes.entries r n stack us) {v : String} (hv : Iri.isValid v = true) :
    r.iri? (iriToken o v) = some v := by
  have reference : r.iri? (.iri v) = some v := by
    rw [Reader.iri?, h.base, Iri.resolve?, if_pos hv]
  unfold iriToken
  split
  · split
    next a ha =>
      obtain ⟨space, hs, -, h'⟩ := PrefixTable.mem_abbreviations.mp (PrefixTable.longest_mem ha)
      have join : space ++ String.ofList a.2.2 = v := by
        rw [← String.toList_inj]
        simp [h'.join]
      have lookup : r.namespaces.lookup a.1 = some space := by
        rw [h.namespaces]
        exact Association.lookup_eq_some_of_mem o.prefixes.nodup hs
      simp [Reader.iri?, lookup, Reader.nameIri?, join, hv]
    next => exact reference
  · exact reference

theorem iriToken_cases (o : Options) (v : String) :
    (∃ s l, iriToken o v = .name s l false) ∨ iriToken o v = .iri v := by
  unfold iriToken
  split
  · split
    · exact .inl ⟨_, _, rfl⟩
    · exact .inr rfl
  · exact .inr rfl

def isOpening : Token → Bool
  | .symbol .openBracket => true
  | .symbol .openList => true
  | .symbol _ => false
  | .tag _ => false
  | _ => true

/-- The tokens are read as an object in a place: the reader, who has met `n` blank nodes without label,
has met `m` behind it, and has read the triples `us` in addition. -/
def Takes (lx : Lexicon) (ns : List (String × String)) (place : Place) (ts : List Token) (n m : Nat)
    (us : List Triple) : Prop :=
  ∃ t ts', ts = t :: ts' ∧ isOpening t = true ∧ ∀ r stack vs, Has lx ns r n stack vs →
    ∃ r₁ r₂, r.takeObject place t = some r₁ ∧ r₁.deliver.run ts' = some r₂ ∧
      Behind lx ns place r₂ m stack (us ++ vs)

theorem takes_iri {o : Options} (place : Place) {v : String} (hv : Iri.isValid v = true) (n : Nat) :
    Takes lx o.prefixes.entries place [iriToken o v] n n [place.triple (.iri v)] := by
  refine ⟨_, _, rfl, ?_, fun r stack vs h => ⟨r.put place (.iri v), _, ?_, rfl, ?_⟩⟩
  · rcases iriToken_cases o v with ⟨s, l, e⟩ | e <;> simp [e, isOpening]
  · have iri := iri?_iriToken h hv
    rcases iriToken_cases o v with ⟨s, l, e⟩ | e
    · rw [e] at iri ⊢
      simp [Reader.takeObject, iri]
    · rw [e] at iri ⊢
      simp [Reader.takeObject, iri]
  · exact .inl ⟨rfl, (h.put place _).deliver⟩

theorem takes_literal {ns : List (String × String)} {o : Options} (place : Place)
    {l : Literal} (hl : lx.admits (.literal l) = true) (n : Nat) :
    Takes lx ns place (termTokens o (.literal l)) n n [place.triple (.literal l)] := by
  cases l with
  | simple v =>
    refine ⟨_, _, rfl, rfl, fun r stack vs h => ⟨_, _, rfl, rfl, ?_⟩⟩
    exact .inr ⟨v, vs, rfl, (h.await _).deliver, .refl _⟩
  | tagged v t =>
    refine ⟨_, _, rfl, rfl, fun r stack vs h => ?_⟩
    let r₁ := (r.await (.afterString v place)).deliver
    let r₂ := r₁.put place (.literal (.tagged v t))
    have kept : r.lexicon.tag? t.text = some t := by
      rw [h.lexicon]
      exact of_decide_eq_true (Bool.and_eq_true_iff.mp hl).2
    have tag : r₁.take (.tag t.text) = some r₂ := by
      simp [r₁, r₂, Reader.take, Reader.await, Reader.deliver, kept]
    exact ⟨_, r₂.deliver, rfl, run_cons tag [], .inl ⟨rfl, ((h.await _).deliver.put place _).deliver⟩⟩
  | typed v d hd =>
    refine ⟨_, _, rfl, rfl, fun r stack vs h => ?_⟩
    let r₁ := (r.await (.afterString v place)).deliver
    let r₂ := r₁.await (.datatype v place)
    let r₃ := r₂.deliver.put place (.literal (.typed v d hd))
    have iri : Iri.resolve? r.base d = some d := by
      rw [h.base, Iri.resolve?, if_pos (show Iri.isValid d = true from hl)]
    have caret : r₁.take (.symbol .datatype) = some r₂ := rfl
    have datatype : r₂.deliver.take (.iri d) = some r₃ := by
      simp [r₁, r₂, r₃, Reader.take, Reader.await, Reader.deliver, Reader.iri?, iri, Node.typed,
        Literal.ofDatatype, hd]
    refine ⟨_, r₃.deliver, rfl, (run_cons caret _).trans (run_cons datatype []), .inl ⟨rfl, ?_⟩⟩
    exact (((h.await _).deliver.await _).deliver.put place _).deliver

theorem takes_term (o : Options) (place : Place) {x : Node} (hx : lx.admits x = true)
    (n : Nat) : Takes lx o.prefixes.entries place (termTokens o x) n n [place.triple x] := by
  cases x with
  | iri v => exact takes_iri place hx n
  | blank l =>
    refine ⟨_, _, rfl, rfl, fun r stack vs h => ⟨_, _, rfl, rfl, ?_⟩⟩
    exact .inl ⟨rfl, (h.put place _).deliver⟩
  | literal l => exact takes_literal place hx n
  | var v => exact absurd hx (by simp [Lexicon.admits])

def isVerb : Token → Bool
  | .symbol _ => false
  | .tag _ => false
  | _ => true

theorem ne_symbol_of_isVerb {t : Token} (h : isVerb t = true) (y : Symbol) : t ≠ .symbol y := by
  rintro rfl
  exact absurd h (by simp [isVerb])

/-- A verb is one token, behind which the object of a property is expected. -/
theorem takeVerb_verbTokens (o : Options) {p : Node} (hp : lx.admits p = true)
    (hi : p.isIri = true) : ∃ t, verbTokens o p = [t] ∧ isVerb t = true ∧
      ∀ r n stack vs (s : Node), Has lx o.prefixes.entries r n stack vs →
        r.takeVerb s t = some (r.await (.object (.property s p))) := by
  obtain ⟨v, rfl⟩ : ∃ v, p = .iri v := by
    cases p with
    | iri v => exact ⟨v, rfl⟩
    | blank _ => simp [Node.isIri] at hi
    | literal _ => simp [Node.isIri] at hi
    | var _ => simp [Node.isIri] at hi
  unfold verbTokens
  split
  next h =>
    simp only [Bool.and_eq_true, decide_eq_true_eq] at h
    exact ⟨_, rfl, rfl, fun r n stack vs s _ => by rw [Reader.takeVerb, if_pos rfl, h.2]⟩
  next =>
    refine ⟨_, rfl, ?_, fun r n stack vs s h => ?_⟩
    · rcases iriToken_cases o v with ⟨s, l, e⟩ | e <;> simp [e, isVerb]
    · have word : iriToken o v ≠ .word "a" := by
        rcases iriToken_cases o v with ⟨s, l, e⟩ | e <;> simp [e]
      rw [Reader.takeVerb, if_neg word, iri?_iriToken h hp]
      rfl

/-! ### Trees -/

mutual

/-- The blank nodes that a tree writes without their labels, in the order in which they begin. -/
def Tree.blanks : Tree → List Node
  | .term _ => []
  | .anonymous n => [n]
  | .list cells => cellBlanks cells
  | .brackets n ps => n :: propertyBlanks ps

def cellBlanks : List (Node × Tree) → List Node
  | [] => []
  | (c, t) :: cells => c :: (t.blanks ++ cellBlanks cells)

def propertyBlanks : List (Node × Tree) → List Node
  | [] => []
  | (_, t) :: ps => t.blanks ++ propertyBlanks ps

end

/-- A renaming sends blank nodes to the nodes that a reader draws from the `n`-th on. -/
def Numbered (f : Node → Node) : Nat → List Node → Prop
  | _, [] => True
  | n, b :: bs => f b = Reader.anonymousNode n ∧ Numbered f (n + 1) bs

theorem numbered_append {f : Node → Node} {n : Nat} {as bs : List Node} :
    Numbered f n (as ++ bs) ↔ Numbered f n as ∧ Numbered f (n + as.length) bs := by
  induction as generalizing n with
  | nil => simp [Numbered]
  | cons a as ih =>
    rw [List.cons_append, Numbered, Numbered, ih, and_assoc, List.length_cons]
    rw [show n + 1 + as.length = n + (as.length + 1) by omega]

/-- The claims of some collections under a renaming. -/
def renamedClaims (f : Node → Node) (cs : List (Node × Collection)) : List Triple :=
  (cs.flatMap fun e => e.2.claims).map (Triple.rename f)

theorem renamedClaims_append (f : Node → Node) (cs ds : List (Node × Collection)) :
    renamedClaims f (cs ++ ds) = renamedClaims f cs ++ renamedClaims f ds := by
  simp [renamedClaims]

/-- A tree is read as an object, with its triples under the renaming. -/
def Reads (lx : Lexicon) (o : Options) (f : Node → Node) (t : Tree) : Prop :=
  ∀ place n, Numbered f n t.blanks → Takes lx o.prefixes.entries place (t.tokens o) n
    (n + t.blanks.length) (place.triple (f t.node) :: renamedClaims f t.collections)

theorem ne_closeList_of_isOpening {t : Token} (h : isOpening t = true) : t ≠ .symbol .closeList := by
  rintro rfl
  exact absurd h (by decide)

theorem isApart_of_isOpening {t : Token} (h : isOpening t = true) : isApart t = true := by
  cases t with
  | symbol y => cases y <;> simp_all [isOpening, isApart]
  | _ => simp_all [isOpening, isApart]

section
variable {o : Options} {f : Node → Node} {ns : List (String × String)}

theorem run_object {place : Place} {ts : List Token} {n m : Nat} {us : List Triple}
    (ht : Takes lx ns place ts n m us) {r : Reader} {stack : List Frame} {vs : List Triple}
    (he : r.expect = .object place) (h : Has lx ns r n stack vs) :
    ∃ r', r.run ts = some r' ∧ Behind lx ns place r' m stack (us ++ vs) := by
  obtain ⟨t, ts', rfl, -, all⟩ := ht
  obtain ⟨r₁, r₂, first, rest, behind⟩ := all r stack vs h
  have : r.take t = some r₁ := by rw [Reader.take, he]; exact first
  exact ⟨r₂, (run_cons this ts').trans rest, behind⟩

theorem run_items (hnil : f .rdfNil = .rdfNil) {cells : List (Node × Tree)}
    (trees : ∀ e ∈ cells, Reads lx o f e.2) {cell : Node} {r : Reader} {n : Nat}
    {outer : Place} {stack : List Frame} {vs : List Triple}
    (h : Behind lx o.prefixes.entries (.item cell) r n (.list outer :: stack) vs)
    (hn : Numbered f n (cellBlanks cells)) :
    ∃ r', r.run (Tree.itemsTokens o cells ++ [.symbol .closeList]) = some r' ∧
      r'.expect = .afterObject outer ∧
      Has lx o.prefixes.entries r' (n + (cellBlanks cells).length) stack
        (⟨cell, .rdfRest, f (listHead (firstTriples cells))⟩ ::
          ((Collection.listClaims (firstTriples cells)).map (Triple.rename f) ++
            renamedClaims f (collectionsIn cells)) ++ vs) := by
  induction cells generalizing cell r n vs with
  | nil =>
    obtain ⟨r₀, h₀, take⟩ := take_behind (t := .symbol .closeList) h rfl
    obtain ⟨r₁, closes, he, h₁⟩ := h₀.closeList cell
    refine ⟨r₁.deliver, run_cons (take.trans closes) [], he, ?_⟩
    simpa [firstTriples, listHead, Collection.listClaims, renamedClaims, collectionsIn, cellBlanks,
      hnil] using h₁.deliver
  | cons e cells ih =>
    obtain ⟨c, t⟩ := e
    rw [cellBlanks, Numbered, numbered_append] at hn
    obtain ⟨hc, ht, hcells⟩ := hn
    obtain ⟨t₀, ts, hts, opening, all⟩ := trees (c, t) List.mem_cons_self (.item (f c)) (n + 1) ht
    -- The first token of the item ends a pending string, opens a cell and starts the item.
    obtain ⟨r₀, h₀, take⟩ := take_behind h (isApart_of_isOpening opening)
    obtain ⟨r₁, next, h₁⟩ := h₀.nextItem cell (ne_closeList_of_isOpening opening)
    rw [← hc] at next h₁
    obtain ⟨r₂, r₃, first, rest, behind⟩ := all _ _ _ h₁
    obtain ⟨r', run, he, has⟩ := ih (fun e he => trees e (List.mem_cons_of_mem _ he)) behind hcells
    refine ⟨r', ?_, he, ?_⟩
    · rw [Tree.itemsTokens, hts, List.append_assoc, List.cons_append,
        run_cons ((take.trans next).trans first), run_append, rest]
      exact run
    · have number : n + 1 + t.blanks.length + (cellBlanks cells).length =
          n + (c :: (t.blanks ++ cellBlanks cells)).length := by
        rw [List.length_cons, List.length_append]
        omega
      rw [number] at has
      refine has.perm ?_
      rw [firstTriples_cons, listClaims_cons, collectionsIn, renamedClaims_append]
      simp only [listHead, List.map_cons, Triple.rename, Place.triple]
      refine List.perm_iff_count.mpr fun a => ?_
      simp only [List.count_append, List.count_cons]
      omega

/-- The triples of some properties and of the collections in them, under the renaming. -/
def renamedProperties (f : Node → Node) (s : Node) (ps : List (Node × Tree)) : List Triple :=
  (propertyTriples s ps).map (Triple.rename f) ++ renamedClaims f (collectionsIn ps)

def IsVerbal (lx : Lexicon) (p : Node) : Prop := lx.admits p = true ∧ p.isIri = true

theorem renamedProperties_cons (f : Node → Node) (s p : Node) (t : Tree) (ps : List (Node × Tree)) :
    (renamedProperties f s ((p, t) :: ps)).Perm
      ((Place.property (f s) p).triple (f t.node) :: renamedClaims f t.collections ++
        renamedProperties f s ps) := by
  rw [renamedProperties, collectionsIn, renamedClaims_append]
  refine List.perm_iff_count.mpr fun a => ?_
  simp only [propertyTriples, List.map_cons, Triple.rename, Place.triple, renamedProperties,
    List.count_append, List.count_cons]
  omega

/-- Between two properties of a subject stands a comma, or a semicolon and a verb. -/
theorem run_separator {p : Node} (hp : IsVerbal lx p) {s q : Node} {r : Reader}
    {n : Nat} {stack : List Frame} {vs : List Triple}
    (h : Behind lx o.prefixes.entries (.property s q) r n stack vs) :
    ∃ r', r.run (if p = q then [.symbol .comma] else .symbol .semicolon :: verbTokens o p) = some r' ∧
      r'.expect = .object (.property s p) ∧ Has lx o.prefixes.entries r' n stack vs := by
  split
  next e =>
    obtain ⟨r₀, h₀, take⟩ := take_behind (t := .symbol .comma) h rfl
    obtain ⟨r₁, comma, he, h₁⟩ := h₀.comma s q
    exact ⟨r₁.deliver, run_cons (take.trans comma) [], e ▸ he, h₁.deliver⟩
  next =>
    obtain ⟨r₀, h₀, take⟩ := take_behind (t := .symbol .semicolon) h rfl
    obtain ⟨r₁, semicolon, he, h₁⟩ := h₀.semicolon s q
    obtain ⟨t, ht, verb, all⟩ := takeVerb_verbTokens o hp.1 hp.2
    have second : r₁.deliver.take t = some (r₁.deliver.await (.object (.property s p))) := by
      have he : r₁.deliver.expect = .verbOrEnd s := he
      rw [Reader.take, he]
      dsimp only
      rw [if_neg (ne_symbol_of_isVerb verb .semicolon), all _ _ _ _ s h₁.deliver, Option.some_or]
    refine ⟨_, ?_, rfl, (h₁.deliver.await _).deliver⟩
    rw [ht, run_cons (take.trans semicolon), run_cons second]
    rfl

theorem run_properties {s : Node} {ps : List (Node × Tree)}
    (trees : ∀ e ∈ ps, Reads lx o f e.2) (verbs : ∀ e ∈ ps, IsVerbal lx e.1) {p : Node} {t : Tree}
    (tree : Reads lx o f t) {r : Reader} (he : r.expect = .object (.property (f s) p)) {n : Nat}
    {stack : List Frame} {vs : List Triple} (h : Has lx o.prefixes.entries r n stack vs)
    (hn : Numbered f n (t.blanks ++ propertyBlanks ps)) :
    ∃ r' q, r.run (t.tokens o ++ Tree.propertiesTokens o (some p) ps) = some r' ∧
      Behind lx o.prefixes.entries (.property (f s) q) r'
        (n + (propertyBlanks ((p, t) :: ps)).length) stack
        (renamedProperties f s ((p, t) :: ps) ++ vs) := by
  induction ps generalizing p t r n vs with
  | nil =>
    obtain ⟨r₁, object, behind⟩ := run_object (tree _ n (numbered_append.mp hn).1) he h
    refine ⟨r₁, p, by rw [Tree.propertiesTokens, List.append_nil]; exact object, ?_⟩
    have only := (renamedProperties_cons f s p t []).append_right vs
    rw [show renamedProperties f s [] = [] from rfl, List.append_nil] at only
    rw [propertyBlanks, propertyBlanks, List.append_nil]
    exact behind.perm only.symm
  | cons e ps ih =>
    obtain ⟨p', t'⟩ := e
    obtain ⟨first, more⟩ := numbered_append.mp hn
    obtain ⟨r₁, object, behind⟩ := run_object (tree _ n first) he h
    -- From here the induction hypothesis reads on with the next property as the first.
    obtain ⟨r₂, separator, he₂, h₂⟩ := run_separator (verbs (p', t') List.mem_cons_self) behind
    obtain ⟨r', q, rest, behind⟩ := ih (fun e he => trees e (List.mem_cons_of_mem _ he))
      (fun e he => verbs e (List.mem_cons_of_mem _ he)) (trees (p', t') List.mem_cons_self) he₂ h₂
      more
    refine ⟨r', q, ?_, ?_⟩
    · rw [Tree.propertiesTokens, run_append, object, Option.bind_some, List.append_assoc,
        run_append, separator]
      exact rest
    · have number : n + t.blanks.length + (propertyBlanks ((p', t') :: ps)).length =
          n + (propertyBlanks ((p, t) :: (p', t') :: ps)).length := by
        conv_rhs => rw [propertyBlanks, List.length_append]
        omega
      rw [number] at behind
      refine behind.perm ?_
      have both := (renamedProperties_cons f s p t ((p', t') :: ps)).append_right vs
      refine List.Perm.trans ?_ both.symm
      rw [List.append_assoc]
      exact (List.perm_append_comm_assoc _ _ _)

theorem renamedClaims_cons (f : Node → Node) (n : Node) (c : Collection)
    (cs : List (Node × Collection)) :
    renamedClaims f ((n, c) :: cs) = c.claims.map (Triple.rename f) ++ renamedClaims f cs := by
  simp [renamedClaims]

theorem reads_emptyBrackets {t : Tree} {x : Node}
    (tokens : t.tokens o = [.symbol .openBracket, .symbol .closeBracket]) (node : t.node = x)
    (blanks : t.blanks = [x]) (claims : renamedClaims f t.collections = []) : Reads lx o f t := by
  intro place n hn
  rw [blanks, Numbered] at hn
  refine ⟨_, _, tokens, rfl, fun r stack vs h => ?_⟩
  obtain ⟨r', closes, he, h'⟩ := (h.await (.inBrackets place)).deliver.emptyBrackets rfl
  refine ⟨_, r'.deliver, rfl, run_cons closes [], .inl ⟨he, ?_⟩⟩
  rw [blanks, node, claims, hn.1]
  exact h'.deliver

theorem reads_brackets {x : Node} {ps : List (Node × Tree)}
    (trees : ∀ e ∈ ps, Reads lx o f e.2) (verbs : ∀ e ∈ ps, IsVerbal lx e.1) :
    Reads lx o f (.brackets x ps) := by
  cases ps with
  | nil => exact reads_emptyBrackets rfl rfl rfl rfl
  | cons e ps =>
    obtain ⟨p, t⟩ := e
    intro place n hn
    obtain ⟨hx, hn⟩ := hn
    refine ⟨_, _, rfl, rfl, fun r stack vs h => ?_⟩
    obtain ⟨verb, hverb, isVerb, all⟩ := takeVerb_verbTokens o (verbs (p, t) List.mem_cons_self).1
      (verbs (p, t) List.mem_cons_self).2
    obtain ⟨r₁, opens, h₁⟩ := (h.await (.inBrackets place)).deliver.openBrackets rfl
      (ne_symbol_of_isVerb isVerb .closeBracket)
    rw [all _ _ _ _ _ h₁, ← hx] at opens
    obtain ⟨r₂, q, properties, behind⟩ := run_properties
      (fun e he => trees e (List.mem_cons_of_mem _ he)) (fun e he => verbs e (List.mem_cons_of_mem _ he))
      (trees (p, t) List.mem_cons_self) (r := (r₁.await (.object (.property (f x) p))).deliver) rfl
      (h₁.await _).deliver hn
    obtain ⟨r₃, h₃, take⟩ := take_behind (t := .symbol .closeBracket) behind rfl
    obtain ⟨r', closes, he, h'⟩ := h₃.closeBrackets (f x) q
    refine ⟨_, r'.deliver, rfl, ?_, .inl ⟨he, ?_⟩⟩
    · rw [Tree.propertiesTokens, List.append_eq, hverb, List.append_assoc, List.append_assoc,
        List.singleton_append, run_cons opens, ← List.append_assoc, run_append, properties]
      exact run_cons (take.trans closes) []
    · have number : n + 1 + (propertyBlanks ((p, t) :: ps)).length =
          n + (Tree.blanks (.brackets x ((p, t) :: ps))).length := by
        rw [Tree.blanks, List.length_cons]
        omega
      rw [← number]
      refine h'.deliver.perm ?_
      rw [Tree.collections, renamedClaims_cons]
      exact .refl _

theorem reads_list (hnil : f .rdfNil = .rdfNil) {cells : List (Node × Tree)}
    (trees : ∀ e ∈ cells, Reads lx o f e.2) : Reads lx o f (.list cells) := by
  cases cells with
  | nil =>
    intro place n _
    refine ⟨_, _, rfl, rfl, fun r stack vs h => ?_⟩
    obtain ⟨r', closes, he, h'⟩ := (h.await (.inList place)).deliver.emptyList rfl
    refine ⟨_, r'.deliver, rfl, run_cons closes [], .inl ⟨he, ?_⟩⟩
    simpa [Tree.node, Tree.blanks, cellBlanks, Tree.collections, collectionsIn, firstTriples,
      renamedClaims, Collection.list, Collection.claims, Collection.listClaims, hnil] using h'.deliver
  | cons e cells =>
    obtain ⟨c, t⟩ := e
    intro place n hn
    rw [Tree.blanks, cellBlanks, Numbered, numbered_append] at hn
    obtain ⟨hc, ht, hcells⟩ := hn
    obtain ⟨t₀, ts, hts, opening, all⟩ := trees (c, t) List.mem_cons_self (.item (f c)) (n + 1) ht
    refine ⟨_, _, rfl, rfl, fun r stack vs h => ?_⟩
    obtain ⟨r₁, opens, h₁⟩ := (h.await (.inList place)).deliver.openList rfl
      (ne_closeList_of_isOpening opening)
    rw [← hc] at opens h₁
    obtain ⟨r₂, r₃, first, rest, behind⟩ := all _ _ _ h₁
    obtain ⟨r', items, he, h'⟩ := run_items hnil (fun e he => trees e (List.mem_cons_of_mem _ he))
      behind hcells
    refine ⟨_, r', rfl, ?_, .inl ⟨he, ?_⟩⟩
    · rw [Tree.itemsTokens, hts, List.append_eq, List.append_assoc, List.cons_append,
        run_cons (opens.trans first), run_append, rest]
      exact items
    · have number : n + 1 + t.blanks.length + (cellBlanks cells).length =
          n + (Tree.blanks (.list ((c, t) :: cells))).length := by
        rw [Tree.blanks, cellBlanks, List.length_cons, List.length_append]
        omega
      rw [← number]
      refine h'.perm ?_
      have claims : (Collection.list (firstTriples ((c, t) :: cells))).claims =
          ⟨c, .rdfFirst, t.node⟩ :: ⟨c, .rdfRest, listHead (firstTriples cells)⟩ ::
            Collection.listClaims (firstTriples cells) := by
        rw [firstTriples_cons, Collection.claims]
        exact listClaims_cons _ _
      rw [Tree.collections, renamedClaims_cons, claims, collectionsIn, renamedClaims_append]
      simp only [Tree.node, List.map_cons, Triple.rename, Place.triple]
      refine List.perm_iff_count.mpr fun a => ?_
      simp only [List.count_append, List.count_cons]
      omega

/-- Every tree is read back if its names stay themselves and can be read. -/
theorem reads_tree (hnil : f .rdfNil = .rdfNil) (t : Tree)
    (named : ∀ x ∈ t.named, f x = x ∧ lx.admits x = true)
    (verbs : ∀ c ∈ t.collections, ∀ u ∈ c.2.triples, IsVerbal lx u.predicate) : Reads lx o f t := by
  refine t.induction_named (N := fun x => f x = x ∧ lx.admits x = true) (V := IsVerbal lx)
    (P := Reads lx o f) ?term ?anonymous ?list ?brackets
    named verbs
  case term =>
    intro x ⟨hx, admitted⟩ place n _
    rw [Tree.node, hx]
    exact takes_term o place admitted n
  case anonymous => exact fun _ => reads_emptyBrackets rfl rfl rfl rfl
  case list => exact fun _ trees => reads_list hnil trees
  case brackets => exact fun _ _ predicates trees => reads_brackets trees predicates

end

end TripleStore.Turtle
