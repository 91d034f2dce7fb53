import TripleStore.Proofs.Turtle.Abbreviation
import TripleStore.Proofs.Turtle.Content

/-! # Lexing documents

The tokens of a laid out document, and that its text is cut into them. Each piece of text is read as its
tokens if a blank or a comma stands behind it. -/
namespace TripleStore.Turtle

/-- The nodes that a lexicon can read back: their IRIs are valid, and their labels and tags are tokens. -/
def Lexicon.admits (lx : Lexicon) : Node → Bool
  | .iri v => Iri.isValid v
  | .blank l => lx.isLabel l
  | .literal (.simple _) => true
  | .literal (.tagged _ t) => lx.isTag t.text && lx.tag? t.text = some t
  | .literal (.typed _ d _) => Iri.isValid d
  | .var _ => false

/-! ### Tokens -/

def iriToken (o : Options) (v : String) : Token :=
  if o.level.abbreviates then
    match PrefixTable.longest (o.prefixes.abbreviations v) with
    | some a => .name a.1 (String.ofList a.2.2) false
    | none => .iri v
  else .iri v

def termTokens (o : Options) : Node → List Token
  | .iri v => [iriToken o v]
  | .blank l => [.blank l]
  | .literal (.simple v) => [.string v]
  | .literal (.tagged v t) => [.string v, .tag t.text]
  | .literal (.typed v d _) => [.string v, .symbol .datatype, .iri d]
  | .var _ => []

def verbTokens (o : Options) (n : Node) : List Token :=
  if o.level.abbreviates && n = .rdfType then [.word "a"] else termTokens o n

mutual

def Tree.tokens (o : Options) : Tree → List Token
  | .term n => termTokens o n
  | .anonymous _ => [.symbol .openBracket, .symbol .closeBracket]
  | .list cells => .symbol .openList :: Tree.itemsTokens o cells ++ [.symbol .closeList]
  | .brackets _ ps =>
    .symbol .openBracket :: Tree.propertiesTokens o none ps ++ [.symbol .closeBracket]

def Tree.itemsTokens (o : Options) : List (Node × Tree) → List Token
  | [] => []
  | (_, t) :: cells => t.tokens o ++ Tree.itemsTokens o cells

def Tree.propertiesTokens (o : Options) (before : Option Node) : List (Node × Tree) → List Token
  | [] => []
  | (p, t) :: rest =>
    (match before with
      | none => verbTokens o p
      | some q => if p = q then [.symbol .comma] else .symbol .semicolon :: verbTokens o p) ++
      t.tokens o ++ Tree.propertiesTokens o (some p) rest

end

def Subject.tokens (o : Options) : Subject → List Token
  | .anonymous _ => [.symbol .openBracket, .symbol .closeBracket]
  | .named n => termTokens o n

def Block.tokens (o : Options) : Block → List Token
  | .single t => termTokens o t.subject ++ verbTokens o t.predicate ++ termTokens o t.object ++
      [.symbol .dot]
  | .grouped s ps => s.tokens o ++ Tree.propertiesTokens o none ps ++ [.symbol .dot]

def declarationTokens (e : String × String) : List Token :=
  [.tag "prefix", .name e.1 "" false, .iri e.2, .symbol .dot]

def Document.tokens (o : Options) (d : Document) : List Token :=
  d.prefixes.flatMap declarationTokens ++ d.blocks.flatMap (Block.tokens o)

/-! ### Lexing -/

inductive Lexes (lx : Lexicon) : List Char → List Token → Prop
  | done {cs : List Char} (h : skipBlanks cs = []) : Lexes lx cs []
  | token {cs cs' rest : List Char} {c : Char} {t : Token} {ts : List Token}
    (skip : skipBlanks cs = c :: cs') (scan : scanToken lx (c :: cs') = some (t, rest))
    (le : rest.length ≤ cs'.length) (tail : Lexes lx rest ts) : Lexes lx cs (t :: ts)

theorem length_skipBlanks (cs : List Char) : (skipBlanks cs).length ≤ cs.length := by
  fun_induction skipBlanks cs with
  | case1 => exact Nat.le_refl _
  | case2 c cs _ ih => exact Nat.le_succ_of_le ih
  | case3 cs _ ih =>
    have := (List.dropWhile_sublist (fun d => d != '\n' && d != '\r') (l := cs)).length_le
    rw [List.length_cons]
    omega
  | case4 c cs => exact Nat.le_refl _

theorem Lexes.scanTokens {lx : Lexicon} {cs : List Char} {ts : List Token} (h : Lexes lx cs ts)
    {fuel : Nat} (hf : cs.length ≤ fuel) : scanTokens lx fuel cs = some ts := by
  induction h generalizing fuel with
  | done h =>
    unfold Turtle.scanTokens
    rw [h]
  | @token cs cs' rest c t ts skip scan le _ ih =>
    have := length_skipBlanks cs
    rw [skip, List.length_cons] at this
    cases fuel with
    | zero => omega
    | succ fuel =>
      unfold Turtle.scanTokens
      rw [skip]
      dsimp only
      rw [scan]
      dsimp only
      rw [ih (by omega)]
      rfl

theorem Lexes.blank {lx : Lexicon} {c : Char} (hc : c = ' ' ∨ c = '\n') {cs : List Char}
    {ts : List Token} (h : Lexes lx cs ts) : Lexes lx (c :: cs) ts := by
  have skip : skipBlanks (c :: cs) = skipBlanks cs := by
    rw [skipBlanks, if_pos (by rcases hc with rfl | rfl <;> simp)]
  cases h with
  | done h => exact .done (skip.trans h)
  | token h scan le tail => exact .token (skip.trans h) scan le tail

/-- Characters that neither are blank nor begin a comment. -/
def isInk (c : Char) : Bool := !(c == ' ' || c == '\t' || c == '\n' || c == '\r' || c == '#')

theorem isInk_of_isAlpha {c : Char} (h : c.isAlpha = true) : isInk c = true := by
  have ne (d : Char) (hd : d.isAlpha = false) : c ≠ d := ne_of_class h hd
  simp [isInk, ne ' ' (by decide), ne '\t' (by decide), ne '\n' (by decide), ne '\r' (by decide),
    ne '#' (by decide)]

theorem Lexes.word {lx : Lexicon} (c : Char) (w : List Char) {rest : List Char} {t : Token} {ts : List Token}
    (hc : isInk c = true) (scan : scanToken lx (c :: (w ++ rest)) = some (t, rest))
    (h : Lexes lx rest ts) : Lexes lx (c :: (w ++ rest)) (t :: ts) := by
  refine .token ?_ scan (by simp) h
  simp only [isInk, Bool.not_eq_true', Bool.or_eq_false_iff, beq_eq_false_iff_ne] at hc
  rw [skipBlanks, if_neg (by simp [hc]), if_neg hc.2]

/-- A piece of text that is cut into tokens if a blank or a comma stands behind it. -/
def Spells (lx : Lexicon) (cs : List Char) (ts : List Token) : Prop :=
  ∀ rest us, IsParted rest → Lexes lx rest us → Lexes lx (cs ++ rest) (ts ++ us)

theorem Spells.append {lx : Lexicon} {cs cs' : List Char} {ts ts' : List Token} (h : Spells lx cs ts)
    (h' : Spells lx cs' ts') : Spells lx (cs ++ ' ' :: cs') (ts ++ ts') := by
  intro rest us hr hl
  rw [List.append_assoc, List.append_assoc]
  exact h _ _ (isParted_blank _) ((h' rest us hr hl).blank (.inl rfl))

theorem Lexes.symbol {lx : Lexicon} {c : Char} {y : Symbol} (hc : isInk c = true)
    (scan : ∀ rest, scanToken lx (c :: rest) = some (.symbol y, rest)) {rest : List Char}
    {ts : List Token} (h : Lexes lx rest ts) : Lexes lx (c :: rest) (.symbol y :: ts) :=
  .word c [] hc (scan rest) h

section
variable {lx : Lexicon} {rest : List Char} {ts : List Token}

theorem Lexes.semicolon (h : Lexes lx rest ts) : Lexes lx (';' :: rest) (.symbol .semicolon :: ts) :=
  .symbol (by decide) (fun _ => rfl) h

theorem Lexes.comma (h : Lexes lx rest ts) : Lexes lx (',' :: rest) (.symbol .comma :: ts) :=
  .symbol (by decide) (fun _ => rfl) h

theorem Lexes.openBracket (h : Lexes lx rest ts) : Lexes lx ('[' :: rest) (.symbol .openBracket :: ts) :=
  .symbol (by decide) (fun _ => rfl) h

theorem Lexes.closeBracket (h : Lexes lx rest ts) :
    Lexes lx (']' :: rest) (.symbol .closeBracket :: ts) :=
  .symbol (by decide) (fun _ => rfl) h

theorem Lexes.openList (h : Lexes lx rest ts) : Lexes lx ('(' :: rest) (.symbol .openList :: ts) :=
  .symbol (by decide) (fun _ => rfl) h

theorem Lexes.closeList (h : Lexes lx rest ts) : Lexes lx (')' :: rest) (.symbol .closeList :: ts) :=
  .symbol (by decide) (fun _ => rfl) h

theorem Lexes.dot (h : Lexes lx rest ts) :
    Lexes lx ('.' :: '\n' :: rest) (.symbol .dot :: ts) :=
  .word '.' [] (by decide) rfl (h.blank (.inr rfl))

theorem Lexes.iri {v : String} (hv : Iri.isValid v = true) (h : Lexes lx rest ts) :
    Lexes lx ('<' :: (v.toList ++ '>' :: rest)) (.iri v :: ts) := by
  have scan := scanIri_append (Iri.isInner_of_isValid hv) rest
  have := Lexes.word '<' (v.toList ++ ['>']) (t := .iri v) (by decide)
    (by simp [scanToken, scan]) h
  simpa using this

end

theorem spells_name (lx : Lexicon) {name : String} (hn : isPrefixName name = true) {cs : List Char}
    (hc : isPlainLocal cs = true) :
    Spells lx (name.toList ++ ':' :: cs) [.name name (String.ofList cs) false] := by
  intro rest us hr h
  have scan := scanName_append hn hc hr
  rw [List.append_assoc, List.cons_append]
  cases e : name.toList with
  | nil =>
    rw [e, List.nil_append] at scan
    exact .word ':' cs (by decide) (by rw [← scan]; rfl) h
  | cons c ds =>
    have letter : c.isAlpha = true := by
      rw [isPrefixName, e, Bool.and_eq_true] at hn
      exact hn.1
    rw [e, List.cons_append] at scan
    have := Lexes.word c (ds ++ ':' :: cs) (isInk_of_isAlpha letter)
      (by rw [scanToken_letter lx letter]; simpa using scan) h
    simpa using this

theorem spells_iri (lx : Lexicon) (o : Options) {v : String} (hv : Iri.isValid v = true) :
    Spells lx (termText o (.iri v)).toList [iriToken o v] := by
  have canonical : Spells lx (Node.iri v).canonical.toList [.iri v] := by
    intro rest us hr h
    have := h.iri hv
    simpa [Node.canonical] using this
  unfold termText iriToken
  split
  · dsimp only
    rw [PrefixTable.abbreviate?]
    cases e : PrefixTable.longest (o.prefixes.abbreviations v) with
    | none => exact canonical
    | some a =>
      obtain ⟨ns, hns, -, hl⟩ := PrefixTable.mem_abbreviations.mp (PrefixTable.longest_mem e)
      have := spells_name lx (o.prefixes.valid _ hns).1 hl.plain
      simpa using this
  · exact canonical

theorem Lexes.string {lx : Lexicon} (v : String) {rest : List Char} {ts : List Token}
    (hr : rest.head? ≠ some '"') (h : Lexes lx rest ts) :
    Lexes lx ('"' :: (v.toList.flatMap Quoted.escape ++ '"' :: rest)) (.string v :: ts) := by
  have scan := scanString_encode v.toList hr
  have := Lexes.word '"' (v.toList.flatMap Quoted.escape ++ ['"']) (t := .string v)
    (by decide) (by simp [scanToken, scan]) h
  simpa using this

theorem IsParted.head?_ne {rest : List Char} (h : IsParted rest) : rest.head? ≠ some '"' := by
  obtain ⟨c, tail, rfl, rfl | rfl⟩ := h <;> simp

theorem spells_literal {lx : Lexicon} (o : Options) {l : Literal} (h : lx.admits (.literal l) = true) :
    Spells lx l.canonical.toList (termTokens o (.literal l)) := by
  intro rest us hr tail
  cases l with
  | simple v =>
    have := Lexes.string v hr.head?_ne tail
    simpa [Literal.canonical, Literal.suffix, Literal.lexical, termTokens] using this
  | tagged v t =>
    have isTag : lx.isTag t.text = true := (Bool.and_eq_true_iff.mp h).1
    have tag : Lexes lx ('@' :: (t.text.toList ++ rest)) (.tag t.text :: us) :=
      .word '@' t.text.toList (by decide) (by simp [scanToken, scanTag_append isTag hr]) tail
    have := Lexes.string v (by simp) tag
    simpa [Literal.canonical, Literal.suffix, Literal.lexical, termTokens] using this
  | typed v d hd =>
    have iri := tail.iri h
    have caret : Lexes lx ('^' :: '^' :: '<' :: (d.toList ++ '>' :: rest))
        (.symbol .datatype :: .iri d :: us) :=
      .word '^' ['^'] (by decide) rfl iri
    have := Lexes.string v (by simp) caret
    simpa [Literal.canonical, Literal.suffix, Literal.lexical, termTokens] using this

theorem spells_term {lx : Lexicon} (o : Options) {n : Node} (h : lx.admits n = true) :
    Spells lx (termText o n).toList (termTokens o n) := by
  cases n with
  | iri v => exact spells_iri lx o h
  | blank l =>
    intro rest us hr tail
    have label : scanLabel lx (l.toList ++ rest) = some (l.toList, rest) := scanLabel_append h hr
    have := Lexes.word '_' (':' :: l.toList) (t := .blank l) (by decide)
      (by simp [scanToken, label]) tail
    simpa [termText, Node.canonical, termTokens] using this
  | literal l =>
    have := spells_literal o h
    simpa [termText, Node.canonical] using this
  | var v => exact absurd h (by simp [Lexicon.admits])

theorem spells_verb {lx : Lexicon} (o : Options) {n : Node} (h : lx.admits n = true) :
    Spells lx (verbText o n).toList (verbTokens o n) := by
  unfold verbText verbTokens
  split
  · intro rest us hr tail
    refine Lexes.word 'a' [] (by decide) ?_ tail
    rw [List.nil_append, scanToken_letter lx (by decide), scanName_letter (by decide) hr]
  · exact spells_term o h

theorem spells_brackets (lx : Lexicon) :
    Spells lx "[]".toList [.symbol .openBracket, .symbol .closeBracket] :=
  fun _ _ _ tail => tail.closeBracket.openBracket

theorem Spells.enclosed {lx : Lexicon} {cs : List Char} {ts : List Token} (h : Spells lx cs ts)
    {a b : Char} {s e : Symbol}
    (opens : ∀ rest us, Lexes lx rest us → Lexes lx (a :: rest) (.symbol s :: us))
    (closes : ∀ rest us, Lexes lx rest us → Lexes lx (b :: rest) (.symbol e :: us)) :
    Spells lx (a :: ' ' :: (cs ++ [' ', b])) (.symbol s :: ts ++ [.symbol e]) := by
  intro rest us _ tail
  have inner := h (' ' :: b :: rest) _ (isParted_blank _) ((closes rest us tail).blank (.inl rfl))
  have := opens _ _ (inner.blank (.inl rfl))
  simpa using this

/-! ### Trees -/

def IsSeparator (s : String) : Prop := s = " ; " ∨ s = " ;\n    "

theorem IsSeparator.lexes {s : String} (h : IsSeparator s) {lx : Lexicon} {rest : List Char}
    {ts : List Token} (tail : Lexes lx rest ts) :
    Lexes lx (s.toList ++ rest) (.symbol .semicolon :: ts) := by
  rcases h with rfl | rfl
  · exact (tail.blank (.inl rfl)).semicolon.blank (.inl rfl)
  · exact (((((tail.blank (.inl rfl)).blank (.inl rfl)).blank (.inl rfl)).blank (.inl rfl)).blank
      (.inr rfl)).semicolon.blank (.inl rfl)

theorem IsSeparator.isParted {s : String} (h : IsSeparator s) (rest : List Char) :
    IsParted (s.toList ++ rest) := by
  rcases h with rfl | rfl
  · exact isParted_blank _
  · exact isParted_blank _

theorem isParted_properties (o : Options) {sep : String} (hs : IsSeparator sep) (q : Node)
    (ps : List (Node × Tree)) {rest : List Char} (hr : IsParted rest) :
    IsParted ((Tree.propertiesText o sep (some q) ps).toList ++ rest) := by
  cases ps with
  | nil => simpa [Tree.propertiesText] using hr
  | cons e ps =>
    obtain ⟨p, t⟩ := e
    rw [Tree.propertiesText]
    split
    · simpa using isParted_comma _
    · simpa using hs.isParted _

theorem spells_properties {lx : Lexicon} (o : Options) {sep : String} (hs : IsSeparator sep)
    {ps : List (Node × Tree)} (verbs : ∀ e ∈ ps, lx.admits e.1 = true)
    (trees : ∀ e ∈ ps, Spells lx (e.2.text o).toList (e.2.tokens o)) (before : Option Node) :
    Spells lx (Tree.propertiesText o sep before ps).toList (Tree.propertiesTokens o before ps) := by
  induction ps generalizing before with
  | nil =>
    intro rest us _ tail
    simpa [Tree.propertiesText, Tree.propertiesTokens] using tail
  | cons e ps ih =>
    obtain ⟨p, t⟩ := e
    have verb := spells_verb o (verbs (p, t) List.mem_cons_self)
    have tree := trees (p, t) List.mem_cons_self
    have more := ih (fun e he => verbs e (List.mem_cons_of_mem _ he))
      (fun e he => trees e (List.mem_cons_of_mem _ he)) (some p)
    intro rest us hr tail
    have object := tree _ _ (isParted_properties o hs p ps hr) (more rest us hr tail)
    have property := verb _ _ (isParted_blank _) (object.blank (.inl rfl))
    cases before with
    | none =>
      rw [Tree.propertiesText, Tree.propertiesTokens]
      simpa using property
    | some q =>
      rw [Tree.propertiesText, Tree.propertiesTokens]
      split
      · simpa using (object.blank (.inl rfl)).comma
      · simpa using hs.lexes property

theorem spells_items {lx : Lexicon} (o : Options) {cells : List (Node × Tree)}
    (trees : ∀ e ∈ cells, Spells lx (e.2.text o).toList (e.2.tokens o)) :
    Spells lx (Tree.itemsText o cells).toList (Tree.itemsTokens o cells) := by
  induction cells with
  | nil =>
    intro rest us _ tail
    simpa [Tree.itemsText, Tree.itemsTokens] using tail
  | cons e cells ih =>
    obtain ⟨n, t⟩ := e
    have tree := trees (n, t) List.mem_cons_self
    have more := ih fun e he => trees e (List.mem_cons_of_mem _ he)
    cases cells with
    | nil => simpa [Tree.itemsText, Tree.itemsTokens] using tree
    | cons e cells => simpa [Tree.itemsText, Tree.itemsTokens] using tree.append more

theorem spells_tree {lx : Lexicon} (o : Options) (t : Tree) (named : ∀ n ∈ t.named, lx.admits n = true)
    (verbs : ∀ c ∈ t.collections, ∀ u ∈ c.2.triples, lx.admits u.predicate = true) :
    Spells lx (t.text o).toList (t.tokens o) := by
  refine t.induction_named (N := fun n => lx.admits n = true) (V := fun p => lx.admits p = true)
    (P := fun t => Spells lx (t.text o).toList (t.tokens o)) ?term ?anonymous ?list ?brackets
    named verbs
  case term => exact fun n hn => spells_term o hn
  case anonymous => exact fun _ => spells_brackets lx
  case list =>
    intro cells trees
    have := (spells_items o trees).enclosed (fun _ _ h => h.openList) (fun _ _ h => h.closeList)
    simpa [Tree.text, Tree.tokens] using this
  case brackets =>
    intro n ps predicates trees
    have := (spells_properties o (.inl rfl) predicates trees none).enclosed
      (fun _ _ h => h.openBracket) (fun _ _ h => h.closeBracket)
    simpa [Tree.text, Tree.tokens] using this

/-! ### Blocks and documents -/

theorem Spells.line {lx : Lexicon} {cs : List Char} {ts : List Token} (h : Spells lx cs ts)
    {rest : List Char} {us : List Token} (tail : Lexes lx rest us) :
    Lexes lx (cs ++ ' ' :: '.' :: '\n' :: rest) (ts ++ .symbol .dot :: us) :=
  h _ _ (isParted_blank _) (tail.dot.blank (.inl rfl))

theorem lexes_block {lx : Lexicon} (o : Options) {b : Block} (h : ∀ n ∈ b.printed, lx.admits n = true)
    {rest : List Char} {us : List Token} (tail : Lexes lx rest us) :
    Lexes lx ((b.text o ++ "\n").toList ++ rest) (b.tokens o ++ us) := by
  cases b with
  | single t =>
    have subject := spells_term o (h _ (Block.mem_printed_of_subject (List.mem_singleton_self t.subject)))
    have shown : t ∈ (Block.single t).shown := List.mem_append_left _ (List.mem_singleton_self t)
    have verb := spells_verb o (h _ (Block.mem_printed_of_shown shown))
    have object := spells_term o (h _ (Block.mem_printed_of_object (List.mem_singleton_self t.object)))
    have := ((subject.append verb).append object).line tail
    simpa [Block.text, Block.tokens] using this
  | grouped s ps =>
    have shown {u : Triple} (hu : u ∈ (Block.grouped s ps).shown) : lx.admits u.predicate = true :=
      h _ (Block.mem_printed_of_shown hu)
    have predicates : ∀ e ∈ ps, lx.admits e.1 = true := fun e he =>
      shown (Block.mem_shown_of_property he)
    have trees : ∀ e ∈ ps, Spells lx (e.2.text o).toList (e.2.tokens o) := by
      intro e he
      apply spells_tree o e.2
      · exact fun n hn => h n (Block.mem_printed_of_object (mem_namedIn he hn))
      · exact fun c hc u hu => shown (Block.mem_shown_of_inline he hc hu)
    have properties := spells_properties o (.inr rfl) predicates trees none
    cases s with
    | named n =>
      have subject := spells_term o (h n (Block.mem_printed_of_subject (List.mem_singleton_self n)))
      simpa [Block.text, Block.tokens, Subject.tokens] using (subject.append properties).line tail
    | anonymous n =>
      have subject := spells_brackets lx
      simpa [Block.text, Block.tokens, Subject.tokens] using (subject.append properties).line tail

theorem lexes_blocks {lx : Lexicon} (o : Options) {bs : List Block}
    (h : ∀ b ∈ bs, ∀ n ∈ b.printed, lx.admits n = true) :
    Lexes lx (bs.flatMap fun b => (b.text o ++ "\n").toList) (bs.flatMap (Block.tokens o)) := by
  induction bs with
  | nil => exact .done (by simp [skipBlanks])
  | cons b bs ih =>
    obtain ⟨hb, hbs⟩ := List.forall_mem_cons.mp h
    exact lexes_block o hb (ih hbs)

theorem lexes_declaration {lx : Lexicon} {e : String × String} (hn : isPrefixName e.1 = true)
    (hi : Iri.isValid e.2 = true) {rest : List Char} {us : List Token} (tail : Lexes lx rest us) :
    Lexes lx ((declarationText e ++ "\n").toList ++ rest) (declarationTokens e ++ us) := by
  have iri := (tail.dot.blank (.inl rfl)).iri hi
  have name := spells_name lx hn (show isPlainLocal [] = true from rfl) _ _ (isParted_blank _)
    (iri.blank (.inl rfl))
  have keyword : lx.isTag "prefix" = true := by cases lx <;> decide
  have scan := scanTag_append keyword (isParted_blank
    (e.1.toList ++ [':'] ++ ' ' :: '<' :: (e.2.toList ++ '>' :: ' ' :: '.' :: '\n' :: rest)))
  have := Lexes.word '@' "prefix".toList (t := .tag "prefix") (by decide)
    (by rw [scanToken, scan]; rfl) (name.blank (.inl rfl))
  simpa [declarationText, declarationTokens] using this

theorem lexes_declarations {lx : Lexicon} {es : List (String × String)}
    (h : ∀ e ∈ es, isPrefixName e.1 = true ∧ Iri.isValid e.2 = true) {rest : List Char}
    {us : List Token} (tail : Lexes lx rest us) :
    Lexes lx ((es.flatMap fun e => (declarationText e ++ "\n").toList) ++ rest)
      (es.flatMap declarationTokens ++ us) := by
  induction es with
  | nil => exact tail
  | cons e es ih =>
    obtain ⟨he, hes⟩ := List.forall_mem_cons.mp h
    rw [List.flatMap_cons, List.flatMap_cons, List.append_assoc, List.append_assoc]
    exact lexes_declaration he.1 he.2 (ih hes)

/-- An empty line may stand between the declarations and the blocks. -/
theorem lexes_heading {lx : Lexicon} {d : Document}
    (prefixes : ∀ e ∈ d.prefixes, isPrefixName e.1 = true ∧ Iri.isValid e.2 = true) {rest : List Char}
    {us : List Token} (tail : Lexes lx rest us) :
    Lexes lx (d.heading.toList ++ rest) (d.prefixes.flatMap declarationTokens ++ us) := by
  have separated : Lexes lx
      (((if !d.prefixes.isEmpty && d.hasTriples then [""] else []).flatMap fun l =>
        (l ++ "\n").toList) ++ rest) us := by
    split
    · exact tail.blank (.inr rfl)
    · exact tail
  have heading : d.heading.toList = (d.prefixes.flatMap fun e => (declarationText e ++ "\n").toList) ++
      (if !d.prefixes.isEmpty && d.hasTriples then [""] else []).flatMap fun l => (l ++ "\n").toList := by
    rw [Document.heading, String.toList_join, List.flatMap_map, List.flatMap_append, List.flatMap_map]
  rw [heading, List.append_assoc]
  exact lexes_declarations prefixes separated

/-- The text of a document whose names are admitted is cut into its tokens. -/
theorem tokens?_text {lx : Lexicon} (o : Options) {d : Document}
    (prefixes : ∀ e ∈ d.prefixes, isPrefixName e.1 = true ∧ Iri.isValid e.2 = true)
    (printed : ∀ b ∈ d.blocks, ∀ n ∈ b.printed, lx.admits n = true) :
    tokens? lx (d.text o) = some (d.tokens o) := by
  have all := lexes_heading prefixes (lexes_blocks o printed)
  have text : (d.text o).toList =
      d.heading.toList ++ d.blocks.flatMap fun b => (b.text o ++ "\n").toList := by
    rw [Document.text_eq, String.toList_append, String.toList_join, List.flatMap_map]
  rw [← text] at all
  exact all.scanTokens le_rfl

end TripleStore.Turtle
