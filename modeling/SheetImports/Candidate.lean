import SheetImports.Uri.Basic

/-!
# Candidates

An import is looked up at a fixed list of places, its candidates: first next to the stylesheet that
imports it, or at its own path if that is absolute, and then under each search root in order. The
candidates are made without the extension of the language; `complete` adds it when a candidate is
tried.
-/

namespace SheetImports

/-- The stylesheet that imports: only its place matters, and it may have none. -/
structure Parent where
  uri : Option Text := none
  deriving DecidableEq, Repr

namespace Parent

/-- A stylesheet with no known place. -/
def anonymous : Parent := {}

/-- The directory that relative imports start from, with its last slash, or nothing. -/
def directory (parent : Parent) : Text := parent.uri.elim [] Uri.directory

end Parent

namespace Candidate

/-- The extension of a stylesheet of the language. -/
def extension : Text := ".scss".toList

/-- The extension of a name that is already complete. -/
def cssExtension : Text := ".css".toList

/-- The uri at which a candidate is tried: a name of a `.css` file as it is, every other name with
the extension. -/
def complete (candidate : Text) : Text :=
  if cssExtension.isSuffixOf candidate then candidate else candidate ++ extension

/-- The identifier without one extension at its end. -/
def stem (identifier : Text) : Text := (extension.isSuffixOf? identifier).getD identifier

/-- The identifier under a search root, with one slash between them. Nothing stands in front of the
identifier if the root is empty. -/
def under (root identifier : Text) : Text :=
  if root = [] then Uri.folded identifier
  else Uri.folded (root.trimEnd (· == '/') ++ ['/'] ++ identifier.dropWhile (· == '/'))

theorem under_of_ne_nil {root : Text} (h : root ≠ []) (identifier : Text) :
    under root identifier
      = Uri.folded (root.trimEnd (· == '/') ++ '/' :: identifier.dropWhile (· == '/')) := by
  rw [under, if_neg h, List.append_assoc, List.singleton_append]

/-- The first candidate of an identifier: itself if it is absolute, else next to its parent. -/
def default (parent : Parent) (identifier : Text) : Text :=
  Uri.folded (if Uri.isRooted identifier then identifier else parent.directory ++ identifier)

/-- The candidates of an import, in the order in which they are tried. -/
def all (parent : Parent) (roots : List Text) (identifier : Text) : List Text :=
  default parent (stem identifier) :: roots.map (under · (stem identifier))

/-- There is one candidate for the parent and one for each root. -/
theorem length_all (parent : Parent) (roots : List Text) (identifier : Text) :
    (all parent roots identifier).length = roots.length + 1 := by
  simp [all]

end Candidate

/-- A search root as it was given, folded; the empty root is the current directory. -/
def searchRoot (entry : Text) : Text :=
  if Uri.folded entry = [] then ".".toList else Uri.folded entry

end SheetImports
