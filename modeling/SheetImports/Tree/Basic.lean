import SheetImports.Stylesheet.Directive

/-!
# Import trees

An import tree has a node for each directive of the entry stylesheet and, below a node whose
stylesheet was read, a node for each directive of that. A node says what became of its directive.
-/

namespace SheetImports

/-- What became of a directive. -/
inductive Outcome where
  /-- A stylesheet was found that the tree had not shown before. -/
  | resolved (uri : Text)
  /-- A stylesheet was found that the tree shows already. -/
  | revisited (uri : Text)
  /-- No candidate is there. -/
  | notFound
  /-- The browser follows the import. -/
  | plainCss
  /-- The stylesheet could not be opened or read, in the words of the message. -/
  | failed (message : Text)
  deriving DecidableEq, Repr

/-- A directive, what became of it, the candidates that were asked for, and the directives of the
stylesheet that was found. -/
structure ImportNode where
  directive : Directive
  outcome : Outcome
  candidates : List Text := []
  children : List ImportNode := []
  deriving Repr

/-- The imports of an entry stylesheet. -/
structure ImportTree where
  entry : Text
  imports : List ImportNode
  deriving Repr

namespace ImportNode

mutual

/-- The nodes of a tree in the order in which they are shown, each with its depth. -/
def preorder (depth : Nat) : ImportNode → List (Nat × ImportNode)
  | ⟨directive, outcome, candidates, children⟩ =>
    (depth, ⟨directive, outcome, candidates, children⟩) :: preorderAll (depth + 1) children

/-- The nodes of sibling trees in the order in which they are shown. -/
def preorderAll (depth : Nat) : List ImportNode → List (Nat × ImportNode)
  | [] => []
  | node :: nodes => node.preorder depth ++ preorderAll depth nodes

end

end ImportNode

/-- The nodes of a tree in the order in which they are shown; direct imports have depth 1. -/
def ImportTree.preorder (tree : ImportTree) : List (Nat × ImportNode) :=
  ImportNode.preorderAll 1 tree.imports

end SheetImports
