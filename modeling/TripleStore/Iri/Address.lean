import TripleStore.Name
import TripleStore.Text.Split

/-! # Addresses in the authority of an IRI

The textual forms of IPv4 and IPv6 addresses, and of the addresses of later versions, that may stand
between square brackets. -/
namespace TripleStore.Iri.Address

/-- A decimal number of at most 255 without leading zeros. -/
def isOctet (cs : List Char) : Bool :=
  cs.all Char.isDigit && 1 ≤ cs.length && cs.length ≤ 3 && (cs.length = 1 || cs.head? != some '0') &&
    cs.foldl (fun n c => 10 * n + (c.toNat - 48)) 0 ≤ 255

def isV4 (cs : List Char) : Bool :=
  let parts := splitAt '.' cs
  parts.length = 4 && parts.all isOctet

/-- One to four hexadecimal digits. -/
def isGroup (cs : List Char) : Bool := cs.all isHexDigit && 1 ≤ cs.length && cs.length ≤ 4

/-- The number of 16-bit groups that a run of groups stands for; an IPv4 address may stand for the
last two where `tail` allows it. -/
def groups? (tail : Bool) : List (List Char) → Option Nat
  | [] => some 0
  | [g] => if isGroup g then some 1 else if tail && isV4 g then some 2 else none
  | g :: gs => if isGroup g then (groups? tail gs).map (· + 1) else none

/-- Splits at the first double colon. -/
def cutDoubleColon : List Char → List Char × Option (List Char)
  | ':' :: ':' :: cs => ([], some cs)
  | c :: cs => let r := cutDoubleColon cs; (c :: r.1, r.2)
  | [] => ([], none)

/-- The groups between single colons; no text means no groups. -/
def colonGroups (cs : List Char) : List (List Char) := if cs.isEmpty then [] else splitAt ':' cs

/-- Eight groups, or fewer than eight around one double colon. -/
def isV6 (cs : List Char) : Bool :=
  match cutDoubleColon cs with
  | (all, none) => groups? true (colonGroups all) == some 8
  | (front, some back) =>
    match groups? false (colonGroups front), groups? true (colonGroups back) with
    | some m, some n => m + n < 8
    | _, _ => false

/-- `v`, a hexadecimal version, a dot and an address of allowed characters. -/
def isFuture (allowed : Char → Bool) : List Char → Bool
  | [] => false
  | v :: cs =>
    (v == 'v' || v == 'V') && match cs.span isHexDigit with
      | (version, '.' :: address) => !version.isEmpty && !address.isEmpty && address.all allowed
      | _ => false

end TripleStore.Iri.Address
