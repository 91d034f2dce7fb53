import TripleStore.Iri.Parts
import TripleStore.Iri.Address

/-! # The grammar of IRIs

Which parts of an IRI reference are well formed. An IRI is kept as it is written, so validity is a
predicate on text. -/
namespace TripleStore.Iri

/-- Letters, digits, `-._~` and the letters outside ASCII. -/
def isUnreserved (c : Char) : Bool :=
  c.isAlphanum || c == '-' || c == '.' || c == '_' || c == '~' ||
    inRanges [(0xA0, 0xD7FF), (0xF900, 0xFDCF), (0xFDF0, 0xFFEF)] c ||
    (inRanges [(0x10000, 0xDFFFD), (0xE1000, 0xEFFFD)] c && c.toNat % 0x10000 < 0xFFFE)

def isSubDelimiter (c : Char) : Bool := "!$&'()*+,;=".toList.contains c

/-- Characters for private use, allowed in a query. -/
def isPrivate (c : Char) : Bool :=
  inRanges [(0xE000, 0xF8FF), (0xF0000, 0xFFFFD), (0x100000, 0x10FFFD)] c

def isUserChar (c : Char) : Bool := isUnreserved c || isSubDelimiter c || c == ':'

/-- In the addresses of later versions only ASCII is allowed. -/
def isAddressChar (c : Char) : Bool := isUserChar c && c.toNat < 128

def isHostChar (c : Char) : Bool := isUnreserved c || isSubDelimiter c
def isSegmentChar (c : Char) : Bool := isUserChar c || c == '@'
def isPathChar (c : Char) : Bool := isSegmentChar c || c == '/'
def isFragmentChar (c : Char) : Bool := isPathChar c || c == '?'
def isQueryChar (c : Char) : Bool := isFragmentChar c || isPrivate c

/-- Whether a text consists of allowed characters and of percent signs that are followed by two
hexadecimal digits. -/
def isEncoded (allowed : Char → Bool) : List Char → Bool
  | [] => true
  | '%' :: a :: b :: cs => isHexDigit a && isHexDigit b && isEncoded allowed cs
  | c :: cs => c != '%' && allowed c && isEncoded allowed cs

/-- A letter, then letters, digits, `+`, `-` and `.`. -/
def isScheme : List Char → Bool
  | [] => false
  | c :: cs => c.isAlpha && cs.all fun d => d.isAlphanum || d == '+' || d == '-' || d == '.'

/-- Nothing, or a colon and digits, of which there may be none. -/
def isDigitSuffix : List Char → Bool
  | [] => true
  | c :: cs => c == ':' && cs.all Char.isDigit

/-- A host, which may be empty, with an optional suffix of a colon and digits. -/
def isHost : List Char → Bool
  | '[' :: cs =>
    match cs.span (· != ']') with
    | (address, _ :: suffix) =>
      (Address.isV6 address || Address.isFuture isAddressChar address) && isDigitSuffix suffix
    | _ => false
  | cs =>
    let (host, suffix) := cs.span (· != ':')
    isEncoded isHostChar host && isDigitSuffix suffix

/-- Optional user information before an at sign, then a host. -/
def isAuthority (cs : List Char) : Bool :=
  match cutAt (· == '@') cs with
  | (user, some rest) => isEncoded isUserChar user && isHost rest
  | (_, none) => isHost cs

/-- Whether every part is well formed; a relative path has no colon in its first segment. -/
def isReference (p : Parts) : Bool :=
  p.scheme.all isScheme && p.authority.all isAuthority && isEncoded isPathChar p.path &&
    p.query.all (isEncoded isQueryChar) && p.fragment.all (isEncoded isFragmentChar) &&
    (p.scheme.isSome || !(p.path.takeWhile (· != '/')).contains ':')

/-- Whether a text is an IRI: a well-formed reference with a scheme. -/
def isValid (s : String) : Bool :=
  let p := split s.toList
  p.scheme.isSome && isReference p

end TripleStore.Iri
