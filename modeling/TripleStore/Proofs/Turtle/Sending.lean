import TripleStore.Turtle.Layout

/-! # Sending

What a sink accepts depends on the bytes that are sent and not on the pieces in which they are sent. A sink
that has accepted everything holds the text of the document behind what it held before. -/
namespace TripleStore

theorem utf8Bytes_append (a b : String) : utf8Bytes (a ++ b) = utf8Bytes a ++ utf8Bytes b := by
  simp [utf8Bytes]

namespace Sink

/-- Sends bytes as far as there is room and tells whether all of them were accepted. -/
def fill (s : Sink) (bytes : List UInt8) : Bool × Sink :=
  match s.room with
  | none => (true, { s with accepted := s.accepted ++ bytes })
  | some n => (decide (bytes.length ≤ n), ⟨some (n - bytes.length), s.accepted ++ bytes.take n⟩)

/-- Goes on with a sink unless it has refused something. -/
def onward {α : Type} (sent : Bool × Sink) (next : Sink → α × Sink) (failed : α) : α × Sink :=
  match sent with
  | (true, s) => next s
  | (false, s) => (failed, s)

theorem fill_nil (s : Sink) : s.fill [] = (true, s) := by
  obtain ⟨room, accepted⟩ := s
  cases room <;> simp [fill]

theorem fill_append (s : Sink) (as bs : List UInt8) :
    s.fill (as ++ bs) = onward (s.fill as) (·.fill bs) false := by
  obtain ⟨room, accepted⟩ := s
  cases room with
  | none => simp [fill, onward]
  | some n =>
    by_cases h : as.length ≤ n
    · have rest : as.length + bs.length ≤ n ↔ bs.length ≤ n - as.length := by omega
      simp [fill, onward, h, rest, Nat.sub_sub, List.take_append, List.take_of_length_le h]
    · have exceeds : ¬ as.length + bs.length ≤ n := by omega
      have none : n - as.length = 0 := by omega
      have none' : n - (as.length + bs.length) = 0 := by omega
      simp [fill, onward, h, exceeds, none, none', List.take_append]

theorem send_eq_fill (s : Sink) (piece : String) : s.send piece = s.fill (utf8Bytes piece) := by
  obtain ⟨room, accepted⟩ := s
  cases room with
  | none => rfl
  | some n =>
    by_cases h : (utf8Bytes piece).length ≤ n
    · simp [send, fill, h, List.take_of_length_le h]
    · have none : n - (utf8Bytes piece).length = 0 := by omega
      simp [send, fill, h, none]

/-- Of what is sent in pieces only the bytes matter. -/
theorem sendAll_eq_fill (s : Sink) (pieces : List String) :
    s.sendAll pieces = s.fill (utf8Bytes (String.join pieces)) := by
  induction pieces generalizing s with
  | nil => exact (fill_nil s).symm
  | cons piece pieces ih =>
    rw [String.join_cons, utf8Bytes_append, fill_append, sendAll, send_eq_fill]
    simp only [ih]
    rfl

theorem sendAll_congr (s : Sink) {ps qs : List String} (h : String.join ps = String.join qs) :
    s.sendAll ps = s.sendAll qs := by
  rw [sendAll_eq_fill, sendAll_eq_fill, h]

theorem sendAll_append (s : Sink) (ps qs : List String) :
    s.sendAll (ps ++ qs) = onward (s.sendAll ps) (·.sendAll qs) false := by
  simp only [sendAll_eq_fill, String.join_append, utf8Bytes_append, fill_append]

theorem accepted_sendAll {s s' : Sink} {pieces : List String} (h : s.sendAll pieces = (true, s')) :
    s'.accepted = s.accepted ++ utf8Bytes (String.join pieces) := by
  obtain ⟨room, accepted⟩ := s
  rw [sendAll_eq_fill] at h
  cases room with
  | none =>
    obtain rfl := congrArg Prod.snd h
    rfl
  | some n =>
    obtain ⟨fits, rfl⟩ := Prod.mk.inj h
    exact congrArg (accepted ++ ·) (List.take_of_length_le (of_decide_eq_true fits))

theorem sendAll_unlimited (bytes : List UInt8) (pieces : List String) :
    sendAll ⟨none, bytes⟩ pieces = (true, ⟨none, bytes ++ utf8Bytes (String.join pieces)⟩) :=
  sendAll_eq_fill _ pieces

theorem decodeCut_utf8Bytes (s : String) : decodeCut (utf8Bytes s) = s := by
  have whole : String.fromUTF8? ⟨((utf8Bytes s).take ((utf8Bytes s).length - 0)).toArray⟩ = some s := by
    have : (⟨((utf8Bytes s).take ((utf8Bytes s).length - 0)).toArray⟩ : ByteArray) = s.toUTF8 := by
      rw [Nat.sub_zero, List.take_length]
      rfl
    rw [this, String.fromUTF8?, dif_pos (s.toUTF8_eq_toByteArray ▸ s.isValidUTF8)]
    rfl
  simp only [decodeCut, whole]

end Sink

namespace Turtle

theorem write_of_layOut {o : Options} {g : Graph} {d : Document} (h : layOut o g = .ok d)
    (sink : Sink) :
    write o g sink = Sink.onward (sink.sendAll (d.lines o)) (.ok (), ·) (.error .sinkFull) := by
  rw [write, h]
  dsimp only
  cases sink.sendAll (d.lines o) with
  | mk sent s => cases sent <;> rfl

/-- A graph is written completely only as the text of its document. -/
theorem write_eq_ok {o : Options} {g : Graph} {sink out : Sink} (h : write o g sink = (.ok (), out)) :
    ∃ d, layOut o g = .ok d ∧ out.accepted = sink.accepted ++ utf8Bytes (d.text o) := by
  cases hd : layOut o g with
  | error e => simp [write, hd] at h
  | ok d =>
    rw [write_of_layOut hd] at h
    cases hs : sink.sendAll (d.lines o) with
    | mk sent s =>
      cases sent with
      | true =>
        rw [hs] at h
        obtain rfl : s = out := congrArg Prod.snd h
        exact ⟨d, rfl, Sink.accepted_sendAll hs⟩
      | false => simp [hs, Sink.onward] at h

theorem write_unlimited {o : Options} {g : Graph} {d : Document} (h : layOut o g = .ok d)
    (bytes : List UInt8) :
    write o g ⟨none, bytes⟩ = (.ok (), ⟨none, bytes ++ utf8Bytes (d.text o)⟩) := by
  rw [write_of_layOut h, Sink.sendAll_unlimited]
  rfl

end Turtle
end TripleStore
