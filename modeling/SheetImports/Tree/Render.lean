import SheetImports.Text.Quoted
import SheetImports.Tree.Basic
import SheetImports.Uri.Shorten

/-!
# Trees as text

A tree is shown line by line. The first line names the entry and counts its imports. Every node has
a line, drawn below and beside its ancestors, and after it a line for each of its candidates. An
ancestor takes four columns: a bar if more siblings follow it, else nothing. Uris are shortened
relative to a base directory.
-/

namespace SheetImports

/-- The columns below a node. -/
def cell (isLast : Bool) : Text := if isLast then "    ".toList else "│   ".toList

/-- The columns that lead to a node. -/
def branch (isLast : Bool) : Text := if isLast then "└── ".toList else "├── ".toList

/-- What a node's line says about its outcome. -/
def Outcome.render (base : Text) : Outcome → Text
  | resolved uri => " → ".toList ++ Uri.shorten base uri
  | revisited uri => " → ".toList ++ Uri.shorten base uri ++ " (already shown)".toList
  | notFound => " ✗ not found".toList
  | plainCss => " (plain css)".toList
  | failed message => " ✗ ".toList ++ message

/-- What a node's line says, without the drawing before it. -/
def ImportNode.label (base : Text) (directive : Directive) (outcome : Outcome) : Text :=
  directive.target.quoted ++ "  [L".toList ++ Text.ofNat directive.line ++ "]".toList
    ++ outcome.render base

namespace ImportNode

mutual

/-- The lines of a node and of all below it, after the columns of its ancestors. -/
def lines (base indent : Text) (isLast : Bool) : ImportNode → List Text
  | ⟨directive, outcome, candidates, children⟩ =>
    (indent ++ branch isLast ++ label base directive outcome)
      :: candidates.map (fun uri =>
        indent ++ cell isLast ++ "  tried: ".toList ++ Uri.shorten base uri)
      ++ linesAll base (indent ++ cell isLast) children

/-- The lines of siblings. -/
def linesAll (base indent : Text) : List ImportNode → List Text
  | [] => []
  | node :: nodes => node.lines base indent nodes.isEmpty ++ linesAll base indent nodes

end

end ImportNode

namespace ImportTree

/-- The first line of a tree. -/
def header (base : Text) (tree : ImportTree) : Text :=
  let count := tree.imports.length
  Uri.shorten base tree.entry ++ "  (".toList ++ Text.ofNat count
    ++ (if count = 1 then " import)".toList else " imports)".toList)

/-- The lines of a tree. -/
def lines (base : Text) (tree : ImportTree) : List Text :=
  tree.header base ::
    if tree.imports.isEmpty then [] else ['│'] :: ImportNode.linesAll base [] tree.imports

/-- The tree as text, seen from the directory `base`. -/
def render (base : Text) (tree : ImportTree) : Text :=
  (tree.lines base).flatMap (· ++ ['\n'])

end ImportTree

end SheetImports
