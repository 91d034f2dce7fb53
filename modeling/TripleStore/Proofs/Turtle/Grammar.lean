import TripleStore.Proofs.Turtle.Abbreviation
import TripleStore.Proofs.Turtle.Content

/-! # What texts denote

A grammar of statements that gives each text its meaning: which node an object stands for, which triples
the properties of a subject give, and which collections stand inline, each with its own triples. It reads
a text from the outside, by its punctuation, and knows nothing of how the text has been laid out.

The texts of blocks are derived in it with the triples and the collections of the blocks. The nodes that
a derivation names are limited by a condition `N`, so that it also tells whose names a text does without. -/
namespace TripleStore.Turtle

/-- A text names a node: by its canonical text, or, for an IRI, by a declared name of a namespace, a colon
and the plain local name that is left. -/
inductive DenotesNode (spaces : List (String × String)) : String → Node → Prop
  | canonical (n : Node) : DenotesNode spaces n.canonical n
  | abbreviated {name space : String} {rest : List Char} (declared : (name, space) ∈ spaces)
      (plain : isPlainLocal rest = true) :
      DenotesNode spaces (name ++ ":" ++ String.ofList rest) (.iri (space ++ String.ofList rest))

/-- A text names a predicate; `a` is `rdf:type`. -/
inductive DenotesVerb (spaces : List (String × String)) : String → Node → Prop
  | node {s : String} {p : Node} (h : DenotesNode spaces s p) : DenotesVerb spaces s p
  | isA : DenotesVerb spaces "a" .rdfType

mutual

/-- A text denotes an object and the collections in it with their keys, in the order in which they begin. A
node that is not named is the key of a collection: brackets give its triples, and a list gives the
`rdf:first` triples of its cells. -/
inductive DenotesObject (spaces : List (String × String)) (N : Node → Prop) :
    String → Node → List (Node × Collection) → Prop
  | named {s : String} {n : Node} (text : DenotesNode spaces s n) (may : N n) : DenotesObject spaces N s n []
  | anonymous {s : String} (n : Node) (empty : s = "[]" ∨ s = "[  ]") :
      DenotesObject spaces N s n [(n, .brackets [])]
  | brackets {s : String} {n : Node} {ts : List Triple} {cs : List (Node × Collection)}
      (properties : DenotesProperties spaces N " ; " s n ts cs) :
      DenotesObject spaces N ("[ " ++ s ++ " ]") n ((n, .brackets ts) :: cs)
  | list {s : String} {firsts : List Triple} {cs : List (Node × Collection)}
      (items : DenotesItems spaces N s firsts cs) :
      DenotesObject spaces N ("( " ++ s ++ " )") (listHead firsts) ((listHead firsts, .list firsts) :: cs)

/-- A text denotes the items of the cells of a list. -/
inductive DenotesItems (spaces : List (String × String)) (N : Node → Prop) :
    String → List Triple → List (Node × Collection) → Prop
  | nil : DenotesItems spaces N "" [] []
  | last {s : String} {n : Node} {cs : List (Node × Collection)} (cell : Node)
      (item : DenotesObject spaces N s n cs) : DenotesItems spaces N s [⟨cell, .rdfFirst, n⟩] cs
  | cons {s s' : String} {n : Node} {t : Triple} {ts : List Triple} {cs cs' : List (Node × Collection)}
      (cell : Node) (item : DenotesObject spaces N s n cs) (items : DenotesItems spaces N s' (t :: ts) cs') :
      DenotesItems spaces N (s ++ " " ++ s') (⟨cell, .rdfFirst, n⟩ :: t :: ts) (cs ++ cs')

/-- A text denotes properties of a subject, with a separator between two predicates. -/
inductive DenotesProperties (spaces : List (String × String)) (N : Node → Prop) :
    String → String → Node → List Triple → List (Node × Collection) → Prop
  | verb {separator v s s' : String} {subject p n : Node} {ts : List Triple}
      {cs cs' : List (Node × Collection)} (verb : DenotesVerb spaces v p) (may : N p)
      (object : DenotesObject spaces N s n cs) (more : DenotesMore spaces N separator s' subject p ts cs') :
      DenotesProperties spaces N separator (v ++ " " ++ s ++ s') subject (⟨subject, p, n⟩ :: ts)
        (cs ++ cs')

/-- A text denotes what may follow a property: further objects of its predicate, and further properties. -/
inductive DenotesMore (spaces : List (String × String)) (N : Node → Prop) :
    String → String → Node → Node → List Triple → List (Node × Collection) → Prop
  | nothing (separator : String) (subject p : Node) : DenotesMore spaces N separator "" subject p [] []
  | object {separator s s' : String} {subject p n : Node} {ts : List Triple}
      {cs cs' : List (Node × Collection)} (object : DenotesObject spaces N s n cs)
      (more : DenotesMore spaces N separator s' subject p ts cs') :
      DenotesMore spaces N separator (", " ++ s ++ s') subject p (⟨subject, p, n⟩ :: ts) (cs ++ cs')
  | properties {separator s : String} {subject : Node} {ts : List Triple} {cs : List (Node × Collection)}
      (p : Node) (properties : DenotesProperties spaces N separator s subject ts cs) :
      DenotesMore spaces N separator (separator ++ s) subject p ts cs

end

/-- A text denotes a statement: its subject, the triples of the subject, and the collections in it. A subject
that is written as `[]` is the key of a collection without triples. -/
inductive DenotesStatement (spaces : List (String × String)) (N : Node → Prop) :
    String → Node → List Triple → List (Node × Collection) → Prop
  | named {s s' : String} {x : Node} {ts : List Triple} {cs : List (Node × Collection)}
      (subject : DenotesNode spaces s x) (may : N x)
      (properties : DenotesProperties spaces N " ;\n    " s' x ts cs) :
      DenotesStatement spaces N (s ++ " " ++ s' ++ " .") x ts cs
  | anonymous {s : String} {x : Node} {ts : List Triple} {cs : List (Node × Collection)}
      (properties : DenotesProperties spaces N " ;\n    " s x ts cs) :
      DenotesStatement spaces N ("[]" ++ " " ++ s ++ " .") x ts ((x, .brackets []) :: cs)

/-! ### The texts of blocks -/

section
variable {o : Options} {N : Node → Prop}

theorem denotes_term (o : Options) (n : Node) : DenotesNode o.prefixes.entries (termText o n) n := by
  unfold termText
  split
  · split
    next v =>
      cases found : o.prefixes.abbreviate? v with
      | none => exact .canonical (.iri v)
      | some text =>
        obtain ⟨a, chosen, rfl⟩ := Option.map_eq_some_iff.mp found
        obtain ⟨space, declared, -, h⟩ :=
          PrefixTable.mem_abbreviations.mp (PrefixTable.longest_mem chosen)
        have join : space ++ String.ofList a.2.2 = v := by
          rw [← String.toList_inj]
          simp [h.join]
        have abbreviated : DenotesNode o.prefixes.entries (a.1 ++ ":" ++ String.ofList a.2.2)
            (.iri (space ++ String.ofList a.2.2)) := .abbreviated declared h.plain
        exact join ▸ abbreviated
    next => exact .canonical n
  · exact .canonical n

theorem denotes_verb (o : Options) (p : Node) : DenotesVerb o.prefixes.entries (verbText o p) p := by
  unfold verbText
  split
  next h =>
    rw [(of_decide_eq_true (Bool.and_eq_true_iff.mp h).2 : p = .rdfType)]
    exact .isA
  next => exact .node (denotes_term o p)

/-- The text of a tree denotes its node with its inline collections. -/
def Denotes (o : Options) (N : Node → Prop) (t : Tree) : Prop :=
  DenotesObject o.prefixes.entries N (t.text o) t.node t.collections

section
variable {separator : String} {subject : Node} {ps : List (Node × Tree)}

theorem denotes_properties_cons {p : Node} {t : Tree} (may : N p) (object : Denotes o N t)
    (more : DenotesMore o.prefixes.entries N separator (Tree.propertiesText o separator (some p) ps)
      subject p (propertyTriples subject ps) (collectionsIn ps)) :
    DenotesProperties o.prefixes.entries N separator
      (Tree.propertiesText o separator none ((p, t) :: ps)) subject
      (propertyTriples subject ((p, t) :: ps)) (collectionsIn ((p, t) :: ps)) := by
  rw [Tree.propertiesText]
  exact .verb (denotes_verb o p) may object more

theorem denotes_more (verbs : ∀ e ∈ ps, N e.1) (trees : ∀ e ∈ ps, Denotes o N e.2) (q : Node) :
    DenotesMore o.prefixes.entries N separator (Tree.propertiesText o separator (some q) ps) subject q
      (propertyTriples subject ps) (collectionsIn ps) := by
  induction ps generalizing q with
  | nil =>
    rw [Tree.propertiesText]
    exact .nothing separator subject q
  | cons e ps ih =>
    obtain ⟨p, t⟩ := e
    obtain ⟨hp, hps⟩ := List.forall_mem_cons.mp verbs
    obtain ⟨ht, hts⟩ := List.forall_mem_cons.mp trees
    have more := ih hps hts p
    rw [Tree.propertiesText]
    split
    next same =>
      subst same
      exact .object ht more
    next =>
      have properties := DenotesMore.properties q (denotes_properties_cons hp ht more)
      rw [Tree.propertiesText] at properties
      simpa only [String.append_assoc] using properties

theorem denotes_properties (some : ps ≠ []) (verbs : ∀ e ∈ ps, N e.1)
    (trees : ∀ e ∈ ps, Denotes o N e.2) :
    DenotesProperties o.prefixes.entries N separator (Tree.propertiesText o separator none ps) subject
      (propertyTriples subject ps) (collectionsIn ps) := by
  cases ps with
  | nil => exact absurd rfl some
  | cons e ps =>
    obtain ⟨hp, hps⟩ := List.forall_mem_cons.mp verbs
    obtain ⟨ht, hts⟩ := List.forall_mem_cons.mp trees
    exact denotes_properties_cons hp ht (denotes_more hps hts e.1)

end

theorem denotes_items {cells : List (Node × Tree)} (trees : ∀ e ∈ cells, Denotes o N e.2) :
    DenotesItems o.prefixes.entries N (Tree.itemsText o cells) (firstTriples cells)
      (collectionsIn cells) := by
  induction cells with
  | nil =>
    rw [Tree.itemsText]
    exact .nil
  | cons e cells ih =>
    obtain ⟨cell, t⟩ := e
    obtain ⟨ht, hts⟩ := List.forall_mem_cons.mp trees
    cases cells with
    | nil =>
      rw [Tree.itemsText, collectionsIn, collectionsIn, List.append_nil]
      exact .last cell ht
    | cons e' cells => exact .cons cell ht (ih hts)

theorem denotes_tree (t : Tree) (named : ∀ n ∈ t.named, N n)
    (verbs : ∀ c ∈ t.collections, ∀ u ∈ c.2.triples, N u.predicate) : Denotes o N t := by
  refine t.induction_named (P := Denotes o N) ?term ?anonymous ?list ?brackets named verbs
  case term => exact fun n may => .named (denotes_term o n) may
  case anonymous => exact fun n => .anonymous n (.inl rfl)
  case list =>
    intro cells trees
    have head : (Tree.list cells).node = listHead (firstTriples cells) := by
      cases cells <;> rfl
    rw [Denotes, Tree.collections, head]
    exact .list (denotes_items trees)
  case brackets =>
    intro n ps predicates trees
    cases ps with
    | nil => exact .anonymous n (.inr rfl)
    | cons e ps => exact .brackets (denotes_properties (List.cons_ne_nil _ _) predicates trees)

/-- The text of a block denotes its triples, those of the inline collections by the collections, and names
only what the block writes by name. -/
theorem denotes_block {b : Block} (direct : b.direct ≠ []) (printed : ∀ n ∈ b.printed, N n) :
    DenotesStatement o.prefixes.entries N (b.text o) b.subject b.direct b.collections := by
  have subject {n : Node} (hn : n ∈ b.subjectNames) : N n := printed n (Block.mem_printed_of_subject hn)
  have shown {u : Triple} (hu : u ∈ b.shown) : N u.predicate := printed _ (Block.mem_printed_of_shown hu)
  have object {n : Node} (hn : n ∈ b.objectNames) : N n := printed n (Block.mem_printed_of_object hn)
  cases b with
  | single t =>
    have predicate := shown (List.mem_append_left _ (List.mem_singleton_self t))
    have named : Denotes o N (.term t.object) :=
      .named (denotes_term o t.object) (object (List.mem_singleton_self t.object))
    have properties : DenotesProperties o.prefixes.entries N " ;\n    "
        (Tree.propertiesText o " ;\n    " none [(t.predicate, .term t.object)]) t.subject [t] [] :=
      denotes_properties_cons predicate named (.nothing _ _ _)
    have text : (Block.single t).text o = termText o t.subject ++ " " ++
        Tree.propertiesText o " ;\n    " none [(t.predicate, .term t.object)] ++ " ." := by
      simp [Block.text, Tree.propertiesText, Tree.text, String.append_assoc]
    rw [text]
    exact .named (denotes_term o t.subject) (subject (List.mem_singleton_self t.subject)) properties
  | grouped s ps =>
    have some : ps ≠ [] := by
      rintro rfl
      exact direct rfl
    have trees : ∀ e ∈ ps, Denotes o N e.2 := by
      intro e he
      apply denotes_tree
      · exact fun n hn => object (mem_namedIn he hn)
      · exact fun c hc u hu => shown (Block.mem_shown_of_inline he hc hu)
    have verbs : ∀ e ∈ ps, N e.1 := fun e he => shown (Block.mem_shown_of_property he)
    cases s with
    | named n =>
      exact .named (denotes_term o n) (subject (List.mem_singleton_self n))
        (denotes_properties some verbs trees)
    | anonymous n => exact .anonymous (denotes_properties some verbs trees)

end

end TripleStore.Turtle
