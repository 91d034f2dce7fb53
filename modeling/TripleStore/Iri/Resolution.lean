import TripleStore.Iri.Grammar

/-! # Resolution of IRI references

The IRI that a reference denotes relative to a base IRI: missing leading parts are taken from the
base, and the dot segments of a relative path are followed from the folder of the base path. Nothing
else is changed: dot segments of the base stay, and so do those of a reference that brings its own
scheme or authority. A reference denotes nothing if its path leads to where an authority would be
read. -/
namespace TripleStore.Iri

/-- What stands between two slashes of a path. -/
abbrev Segment := List Char

/-- A path that ends with a slash, as its segments from the last to the first. -/
abbrev Folder := List Segment

/-- The folder of a path. Behind an authority it is never above the root. -/
def folder (rooted : Bool) (path : List Char) : Folder :=
  match (splitAt '/' path).dropLast.reverse with
  | [] => if rooted then [[]] else []
  | f => f

/-- The folder around a folder. The root is kept behind an authority, and left otherwise. -/
def Folder.parent (rooted : Bool) : Folder → Folder
  | [] => []
  | [root] => if rooted then [root] else []
  | _ :: f => f

/-- The path of a name in a folder. Without an authority before it there is no path that begins with two
slashes, because it would be taken for one. -/
def Folder.path? (rooted : Bool) (f : Folder) (name : Segment) : Option (List Char) :=
  let path := ['/'].intercalate (name :: f).reverse
  if rooted || path.take 2 != ['/', '/'] then some path else none

/-- The path to which segments lead from a folder: `.` stays in the folder and `..` goes to its parent;
the last segment is the name that the path ends with. Dot segments lead only to folders with a
path. -/
def follow (rooted : Bool) (f : Folder) : List Segment → Option (List Char)
  | [] => f.path? rooted []
  | s :: rest =>
    if s = ['.'] then (f.path? rooted []).bind fun _ => follow rooted f rest
    else if s = ['.', '.'] then
      ((f.parent rooted).path? rooted []).bind fun _ => follow rooted (f.parent rooted) rest
    else if rest.isEmpty then f.path? rooted s
    else follow rooted (s :: f) rest

/-- The path of a relative reference: from the base path's folder, or from nowhere if it begins with
a slash. -/
def resolvePath? (base : Parts) (path : List Char) : Option (List Char) :=
  let rooted := base.authority.isSome
  follow rooted (if path.head? = some '/' then [] else folder rooted base.path) (splitAt '/' path)

def resolveParts? (base ref : Parts) : Option Parts :=
  if ref.scheme.isSome then some ref
  else if ref.authority.isSome then some { ref with scheme := base.scheme }
  else if ref.path.isEmpty then
    some { base with query := ref.query.or base.query, fragment := ref.fragment }
  else
    (resolvePath? base ref.path).map fun path =>
      { scheme := base.scheme
        authority := base.authority
        path
        query := ref.query
        fragment := ref.fragment }

/-- The IRI that a reference denotes relative to an optional base; without a base only an IRI denotes
one, and it is kept as written. -/
def resolve? (base : Option String) (reference : String) : Option String :=
  match base with
  | none => if isValid reference then some reference else none
  | some b =>
    let ref := split reference.toList
    if isReference ref then
      ((resolveParts? (split b.toList) ref).map fun parts => String.ofList (join parts)).filter isValid
    else none

end TripleStore.Iri
