import TripleStore.Name

/-! # The parts of an IRI

An IRI reference is split into scheme, authority, path, query and fragment at the first delimiters
that can end each part, and joined from them. The split is purely textual; `Iri.isReference` and
`Iri.isValid` say which parts are well formed. -/
namespace TripleStore.Iri

/-- The parts of an IRI reference, without their delimiters. -/
structure Parts where
  scheme : Option (List Char)
  authority : Option (List Char)
  path : List Char
  query : Option (List Char)
  fragment : Option (List Char)
  deriving DecidableEq

/-- What stands before the first character that satisfies `p`, and what stands after that
character, if there is one. -/
def cutAt (p : Char → Bool) : List Char → List Char × Option (List Char)
  | [] => ([], none)
  | c :: cs => if p c then ([], some cs) else (c :: (cutAt p cs).1, (cutAt p cs).2)

/-- What stands before the first colon and after it; `none` if one of `/?#` or the end comes first
or nothing stands before it. -/
def cutScheme (cs : List Char) : Option (List Char × List Char) :=
  match cs.span fun c => !(c == ':' || c == '/' || c == '?' || c == '#') with
  | ([], _) => none
  | (scheme, ':' :: rest) => some (scheme, rest)
  | _ => none

/-- The authority behind two slashes, if the text starts with them, and the path that follows. -/
def cutAuthority : List Char → Option (List Char) × List Char
  | '/' :: '/' :: cs => let (a, path) := cs.span (· != '/'); (some a, path)
  | cs => (none, cs)

def split (cs : List Char) : Parts :=
  let (scheme, rest) := match cutScheme cs with
    | some (s, rest) => (some s, rest)
    | none => (none, cs)
  let (beforeFragment, fragment) := cutAt (· == '#') rest
  let (hierarchy, query) := cutAt (· == '?') beforeFragment
  let (authority, path) := cutAuthority hierarchy
  { scheme, authority, path, query, fragment }

/-- An optional part after or before its delimiter. -/
def delimited (delimiter : String) : Option (List Char) → List Char
  | none => []
  | some cs => delimiter.toList ++ cs

def join (p : Parts) : List Char :=
  (match p.scheme with | none => [] | some s => s ++ [':']) ++ delimited "//" p.authority ++ p.path ++
    delimited "?" p.query ++ delimited "#" p.fragment

end TripleStore.Iri
