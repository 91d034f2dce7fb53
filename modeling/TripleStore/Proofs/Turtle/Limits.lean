import TripleStore.Proofs.Turtle.Sending

/-! # Sinks that run full

A sink accepts as many of the bytes that are sent to it as it has room for, whatever the pieces in which
they are sent. A writer that sends each line in pieces before it lays out the next one therefore does the
same as one that lays out the whole document first: it leaves the first bytes of the text. The lists of a
graph are checked before anything is sent. -/
namespace TripleStore.Turtle

/-- A writer sends text to a sink and may fail. -/
abbrev Writing := ExceptT WriteError (StateM Sink)

section
variable (cut : String → List String)

/-- Sends a line in the pieces into which it is cut. -/
def sendLine (line : String) : Writing Unit := fun s =>
  Sink.onward (s.sendAll (cut (line ++ "\n"))) (.ok (), ·) (.error .sinkFull)

def sendLines : List String → Writing Unit
  | [] => pure ()
  | line :: lines => do
    sendLine cut line
    sendLines lines

/-- Lays out the block of each subject when the blocks before it have been sent. -/
def sendSubjects (o : Options) (lay : Node → Registry → Block × Registry) :
    List Node → Registry → Writing Registry
  | [], r => pure r
  | n :: ns, r => do
    let (b, r) := lay n r
    sendLine cut (b.text o)
    sendSubjects o lay ns r

/-- Sends what the unclaimed triples say and tells which collections have been written. -/
def sendBody (o : Options) (g : Graph) (r : Registry) : Writing Registry :=
  if o.level.groups then
    sendSubjects cut o (layBlock g r.claims) ((unclaimed g r.claims).map Triple.subject).eraseDups r
  else do
    sendLines cut ((g.toList.map .single).map (Block.text o))
    pure r

/-- Writes a graph line by line. -/
def stream (o : Options) (g : Graph) : Writing Unit :=
  match collectionsFor o.level g with
  | .error e => throw (.malformedList e)
  | .ok r => do
    sendLines cut (o.prefixes.entries.map declarationText)
    sendLines cut (if !o.prefixes.entries.isEmpty && !g.isEmpty then [""] else [])
    let r ← sendBody cut o g r
    sendLines cut ((layRemaining r).map (Block.text o))

end

/-- A writer sends some lines, and has a result unless the sink is full before. -/
def Sends {α : Type} (w : Writing α) (lines : List String) (a : α) : Prop :=
  ∀ s, w s = Sink.onward (s.sendAll (lines.map (· ++ "\n"))) (.ok a, ·) (.error .sinkFull)

namespace Sends
variable {α β : Type} {cut : String → List String}

theorem pure (a : α) : Sends (pure a) [] a := fun _ => rfl

theorem bind {w : Writing α} {f : α → Writing β} {ls ms : List String} {a : α} {b : β}
    (h : Sends w ls a) (h' : Sends (f a) ms b) : Sends (w >>= f) (ls ++ ms) b := by
  intro s
  change (fun sent : Except WriteError α × Sink => ExceptT.bindCont f sent.1 sent.2) (w s) = _
  rw [h s, List.map_append, Sink.sendAll_append]
  cases s.sendAll (ls.map (· ++ "\n")) with
  | mk sent s =>
    cases sent with
    | true => exact h' s
    | false => rfl

theorem seq {w : Writing Unit} {next : Writing β} {ls ms : List String} {b : β}
    (h : Sends w ls ()) (h' : Sends next ms b) : Sends (w >>= fun _ => next) (ls ++ ms) b :=
  h.bind h'

theorem line (whole : ∀ text, String.join (cut text) = text) (text : String) :
    Sends (sendLine cut text) [text] () := by
  intro s
  have same : s.sendAll (cut (text ++ "\n")) = s.sendAll [text ++ "\n"] :=
    s.sendAll_congr (by simp [whole])
  rw [sendLine, same]
  rfl

theorem lines (whole : ∀ text, String.join (cut text) = text) (ls : List String) :
    Sends (sendLines cut ls) ls () := by
  induction ls with
  | nil => exact pure ()
  | cons l ls ih => exact (line whole l).bind ih

theorem subjects (whole : ∀ text, String.join (cut text) = text) (o : Options)
    (lay : Node → Registry → Block × Registry) (ns : List Node) (r : Registry) :
    Sends (sendSubjects cut o lay ns r) ((thread lay ns r).1.map (Block.text o)) (thread lay ns r).2 := by
  induction ns generalizing r with
  | nil => exact pure r
  | cons n ns ih => exact (line whole _).bind (ih (lay n r).2)

/-- What has been sent before the remaining collections. -/
theorem body (whole : ∀ text, String.join (cut text) = text) (o : Options) (g : Graph) (r : Registry) :
    ∃ bs r', Sends (sendBody cut o g r) (bs.map (Block.text o)) r' ∧
      layBlocks o.level g r = bs ++ layRemaining r' := by
  unfold sendBody layBlocks
  split
  next => exact ⟨_, _, subjects whole o _ _ r, rfl⟩
  next =>
    refine ⟨g.toList.map .single, r, ?_, rfl⟩
    have statements := (lines whole ((g.toList.map .single).map (Block.text o))).seq (pure r)
    rwa [List.append_nil] at statements

end Sends

/-- Writing line by line is the same as laying out the whole document before the first line is sent. -/
theorem stream_eq_write {cut : String → List String} (whole : ∀ text, String.join (cut text) = text)
    (o : Options) (g : Graph) (sink : Sink) : stream cut o g sink = write o g sink := by
  unfold stream
  cases hr : collectionsFor o.level g with
  | error e =>
    rw [write, layOut, hr]
    rfl
  | ok r =>
    obtain ⟨bs, r', body, blocks⟩ := Sends.body whole o g r
    have sends := (Sends.lines whole (o.prefixes.entries.map declarationText)).seq
      ((Sends.lines whole (if !o.prefixes.entries.isEmpty && !g.isEmpty then [""] else [])).seq
        (body.bind (f := fun r => sendLines cut ((layRemaining r).map (Block.text o)))
          (Sends.lines whole ((layRemaining r').map (Block.text o)))))
    have laid : layOut o g = .ok
        { prefixes := o.prefixes.entries
          hasTriples := !g.isEmpty
          blocks := bs ++ layRemaining r' } := by
      rw [layOut, hr, ← blocks]
      rfl
    rw [write_of_layOut laid, Document.lines, List.map_append (f := Block.text o), List.append_assoc]
    exact sends sink

/-- Collections are used, and the analysis of the graph finds a malformed list. -/
def FindsMalformed (o : Options) (g : Graph) (e : ListError) : Prop :=
  Level.default.value < o.level.value ∧ g.collections .all = .error e

theorem layOut_eq_error_iff {o : Options} {g : Graph} {e : ListError} :
    layOut o g = .error e ↔ FindsMalformed o g e := by
  have above : o.level.collects = true ↔ Level.default.value < o.level.value := decide_eq_true_iff
  rw [layOut, collectionsFor, FindsMalformed, ← above]
  cases o.level.collects with
  | false => simp [Except.map]
  | true => cases g.collections .all <;> simp [Except.map]

theorem write_of_error {o : Options} {g : Graph} {e : ListError} (h : layOut o g = .error e)
    (sink : Sink) : write o g sink = (.error (.malformedList e), sink) := by
  rw [write, h]

theorem write_limited_of_layOut {o : Options} {g : Graph} {d : Document} (h : layOut o g = .ok d)
    (n : Nat) :
    write o g ⟨some n, []⟩ =
      (if (utf8Bytes (d.text o)).length ≤ n then .ok () else .error .sinkFull,
        ⟨some (n - (utf8Bytes (d.text o)).length), (utf8Bytes (d.text o)).take n⟩) := by
  rw [write_of_layOut h, Sink.sendAll_eq_fill, Sink.fill]
  dsimp only
  rw [← Document.text, List.nil_append]
  by_cases fits : (utf8Bytes (d.text o)).length ≤ n
  · rw [decide_eq_true fits, if_pos fits]
    rfl
  · rw [decide_eq_false fits, if_neg fits]
    rfl

/-- A malformed list is reported only above the default level, exactly when the analysis finds it, and then
nothing is sent. Any other graph is written completely to an unlimited sink. A sink with room for `n` bytes
takes the first `n` bytes of this text, and writing succeeds if and only if that is all of it; else the
sink is full. A writer that cuts each line into pieces, and lays out a line only when the lines before it
have been sent, does the same. -/
theorem write_limited {cut : String → List String} (whole : ∀ text, String.join (cut text) = text)
    (o : Options) (g : Graph) (n : Nat) :
    let text := (write o g ⟨none, []⟩).2.accepted
    let limited := write o g ⟨some n, []⟩
    (∀ sink e, ((write o g sink).1 = .error (.malformedList e) ↔ FindsMalformed o g e) ∧
      (FindsMalformed o g e → (write o g sink).2 = sink)) ∧
    ((∀ e, ¬ FindsMalformed o g e) →
      (write o g ⟨none, []⟩).1 = .ok () ∧ limited.2.accepted = text.take n ∧
        (limited.1 = .ok () ↔ text.length ≤ n) ∧ (limited.1 ≠ .ok () → limited.1 = .error .sinkFull)) ∧
    ∀ sink, stream cut o g sink = write o g sink := by
  intro text limited
  refine ⟨fun sink e => ?_, fun wellFormed => ?_, stream_eq_write whole o g⟩
  · rw [← layOut_eq_error_iff]
    cases hd : layOut o g with
    | error e' =>
      rw [write_of_error hd]
      exact ⟨by simp, fun _ => rfl⟩
    | ok d =>
      have other : (write o g sink).1 ≠ .error (.malformedList e) := by
        rw [write_of_layOut hd]
        cases sink.sendAll (d.lines o) with
        | mk sent s => cases sent <;> simp [Sink.onward]
      exact ⟨by simp [other], by simp⟩
  · cases hd : layOut o g with
    | error e => exact absurd (layOut_eq_error_iff.mp hd) (wellFormed e)
    | ok d =>
      have unlimited : write o g ⟨none, []⟩ = (.ok (), ⟨none, utf8Bytes (d.text o)⟩) :=
        write_unlimited hd []
      have part : limited = _ := write_limited_of_layOut hd n
      have all : text = utf8Bytes (d.text o) := congrArg (·.2.accepted) unlimited
      rw [unlimited, all, part]
      refine ⟨rfl, rfl, ?_, ?_⟩
      · split <;> simp [*]
      · split <;> simp

/-- A statement is sent character by character to a sink with room for its subject. -/
theorem write_limited_subject :
    let cut := fun text : String => text.toList.map String.singleton
    let o : Options := { level := .none }
    let s := Node.iri "ex:s"
    let g := Graph.ofList [⟨s, .rdfType, s⟩]
    (∀ text, String.join (cut text) = text) ∧
      (write o g ⟨some 6, []⟩).1 = .error .sinkFull ∧
      (write o g ⟨some 6, []⟩).2.accepted = utf8Bytes "<ex:s>" ∧
      ∀ sink, stream cut o g sink = write o g sink := by
  intro cut o s g
  have whole (text : String) : String.join (cut text) = text := by
    simp [cut, ← String.toList_inj, List.flatMap_map]
  have text : (write o g ⟨none, []⟩).2.accepted =
      utf8Bytes "<ex:s> <http://www.w3.org/1999/02/22-rdf-syntax-ns#type> <ex:s> .\n" := by
    decide +kernel
  obtain ⟨-, limited, streamed⟩ := write_limited whole o g 6
  obtain ⟨-, accepted, fits, full⟩ := limited fun e h => absurd h.1 (by decide)
  rw [text] at accepted fits
  refine ⟨whole, full fun done => ?_, accepted.trans (by decide +kernel), streamed⟩
  exact absurd (fits.mp done) (by decide +kernel)

end TripleStore.Turtle
