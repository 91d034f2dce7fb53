/-! # Sources and sinks

Documents come as bytes from a source and go as text to a sink; either may break off. A sink is unlimited
or accepts a number of bytes and then fails. Text is sent to it piece by piece; what does not fit is cut
within its bytes, and nothing is sent afterwards. -/
namespace TripleStore

/-- The coarse kind under which a failed operation on documents is reported to its caller. -/
inductive FailureKind
  /-- The data is malformed. -/
  | invalidData
  /-- A parameter is malformed. -/
  | invalidInput
  /-- The source or the sink failed. -/
  | other
  deriving DecidableEq

def FailureKind.text : FailureKind → String
  | invalidData => "InvalidData"
  | invalidInput => "InvalidInput"
  | other => "Other"

/-- The bytes of a document as they are delivered, and whether the delivery breaks off after them. -/
structure Source where
  bytes : ByteArray
  broken : Bool := false

def Source.ofText (s : String) : Source := { bytes := s.toUTF8 }

def utf8Bytes (s : String) : List UInt8 := s.toUTF8.data.toList

structure Sink where
  /-- How many more bytes are accepted; `none` for any number. -/
  room : Option Nat
  accepted : List UInt8 := []

namespace Sink

/-- Sends one piece and tells whether all of it was accepted. -/
def send (s : Sink) (piece : String) : Bool × Sink :=
  let bytes := utf8Bytes piece
  match s.room with
  | none => (true, { s with accepted := s.accepted ++ bytes })
  | some n =>
    if bytes.length ≤ n then (true, ⟨some (n - bytes.length), s.accepted ++ bytes⟩)
    else (false, ⟨some 0, s.accepted ++ bytes.take n⟩)

/-- Sends pieces until one is not accepted, and tells whether all were. -/
def sendAll (s : Sink) : List String → Bool × Sink
  | [] => (true, s)
  | piece :: pieces =>
    match s.send piece with
    | (true, s) => s.sendAll pieces
    | (false, s) => (false, s)

/-- Reads bytes as text; a character that is cut at the end is shown as a replacement character. -/
def decodeCut (bytes : List UInt8) : String :=
  let attempt k := String.fromUTF8? ⟨(bytes.take (bytes.length - k)).toArray⟩
  match attempt 0, attempt 1, attempt 2, attempt 3 with
  | some s, _, _, _ => s
  | none, some s, _, _ | none, none, some s, _ | none, none, none, some s => s ++ "\ufffd"
  | none, none, none, none => "\ufffd"

def text (s : Sink) : String := decodeCut s.accepted

end Sink
end TripleStore
