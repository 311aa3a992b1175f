import SheetImports.Text.Basic

/-!
# Uris and their folded form

A uri names a stylesheet: a path, or a path after a scheme such as `http://`. Its folded form has
no empty and no `.` segment, and a `..` has taken away the segment before it. What a `..` does when
there is nothing left to take away depends on what the path stands on (`Uri.Ground`): it stays in
front of a relative path, it stops at the root of an absolute one, and it never takes away the
authority of a uri with a scheme.

Folding is one pass over the segments with a stack (`Uri.push`). `Uri.folded` is the folded form of
a text.
-/

namespace SheetImports

/-- A uri in its parts. -/
structure Uri where
  /-- What stands up to and including the first `://`, or nothing. -/
  scheme : Text
  /-- Whether a `/` follows at once. -/
  rooted : Bool
  /-- What stands between the slashes of the rest. -/
  segments : List Text
  deriving DecidableEq, Repr

namespace Uri

/-- The mark that ends a scheme. -/
def schemeMark : Text := "://".toList

/-- What a path stands on. -/
inductive Ground where
  /-- A place that is not named: each `..` that finds nothing to take away leads out of it. -/
  | here
  /-- The root, which `..` does not leave. -/
  | root
  /-- A scheme without a root: the first segment is the authority and stays. -/
  | authority
  deriving DecidableEq, Repr

/-- What the path of a uri stands on. -/
def ground (uri : Uri) : Ground :=
  if uri.rooted then .root else if uri.scheme = [] then .here else .authority

/-- The stack, top first, after one more segment. -/
def push (ground : Ground) (stack : List Text) (segment : Text) : List Text :=
  if segment = [] ∨ segment = ".".toList then stack
  else if segment = "..".toList then
    match ground, stack with
    | .here, [] => [segment]
    | .here, top :: below => if top = "..".toList then segment :: top :: below else below
    | .root, stack => stack.tail
    | .authority, [] => []
    | .authority, [name] => [name]
    | .authority, _ :: below => below
  else segment :: stack

/-- The segments that are left after folding. -/
def foldSegments (ground : Ground) (segments : List Text) : List Text :=
  (segments.foldl (push ground) []).reverse

/-- The uri with its segments folded. -/
def fold (uri : Uri) : Uri := { uri with segments := foldSegments uri.ground uri.segments }

/-! ## Reading and writing -/

/-- The scheme of a text with its mark, and what follows. -/
def splitScheme (text : Text) : Text × Text :=
  match Text.cut schemeMark text with
  | some (name, rest) => (name ++ schemeMark, rest)
  | none => ([], text)

/-- The scheme and what follows it are the text. -/
theorem splitScheme_append (text : Text) : (splitScheme text).1 ++ (splitScheme text).2 = text := by
  unfold splitScheme
  split
  next hcut => exact (Text.append_of_cut hcut).symm
  next => rfl

/-- The uri that a text writes. -/
def ofText (text : Text) : Uri :=
  let (scheme, path) := splitScheme text
  ⟨scheme, path.head? = some '/', path.splitOn '/'⟩

/-- A folded uri as a text. -/
def toText (uri : Uri) : Text :=
  uri.scheme ++ (if uri.rooted then ['/'] else []) ++ ['/'].intercalate uri.segments

/-- The folded form of a text. -/
def folded (text : Text) : Text := (ofText text).fold.toText

/-! ## Parts of a text -/

/-- The directory in which a uri stands, with its last slash, or nothing if it has none. -/
def directory (text : Text) : Text := text.throughLast '/'

/-- Whether the text has a scheme. -/
def hasScheme (text : Text) : Bool := (Text.cut schemeMark text).isSome

/-- Whether the text is a path from the root. -/
def isRooted (text : Text) : Bool := text.head? = some '/'

end Uri

end SheetImports
