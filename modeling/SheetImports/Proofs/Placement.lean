import SheetImports.Tree.Basic

/-!
# Where nodes stand

A node of an import tree stands under the stylesheet that holds its directive. The placements of a
tree are its nodes in the order in which they are shown (`map_placements`), each with the uri of
that stylesheet and its depth. A placement is either at the top or below another one
(`ImportTree.origin_of_mem`).
-/

namespace SheetImports

namespace Outcome

/-- The uri of the stylesheet that was opened, if one was. -/
def uri? : Outcome → Option Text
  | resolved uri => some uri
  | revisited uri => some uri
  | _ => none

/-- The uri of a stylesheet that the tree had not shown before. -/
def resolved? : Outcome → Option Text
  | resolved uri => some uri
  | _ => none

theorem resolved?_eq_some {outcome : Outcome} {uri : Text} :
    outcome.resolved? = some uri ↔ outcome = .resolved uri := by
  cases outcome <;> simp [resolved?]

end Outcome

/-- A node under the stylesheet that holds its directive, at a depth. -/
structure Placement where
  parent : Text
  depth : Nat
  node : ImportNode

namespace ImportNode

/-- The uri of the stylesheet that the children of a node stand under. -/
def place (node : ImportNode) : Text := node.outcome.uri?.getD []

mutual

/-- The placements of a tree under a stylesheet at a depth. -/
def placements (parent : Text) (depth : Nat) : ImportNode → List Placement
  | ⟨directive, outcome, candidates, children⟩ =>
    ⟨parent, depth, ⟨directive, outcome, candidates, children⟩⟩
      :: placementsAll (outcome.uri?.getD []) (depth + 1) children

/-- The placements of sibling trees. -/
def placementsAll (parent : Text) (depth : Nat) : List ImportNode → List Placement
  | [] => []
  | node :: nodes => node.placements parent depth ++ placementsAll parent depth nodes

end

theorem placements_eq (parent : Text) (depth : Nat) (node : ImportNode) :
    node.placements parent depth
      = ⟨parent, depth, node⟩ :: placementsAll node.place (depth + 1) node.children := by
  cases node
  rw [placements]
  rfl

mutual

/-- The placements of a node are those of itself and its descendants, in the order in which they are
shown. -/
theorem map_placements (parent : Text) (depth : Nat) (node : ImportNode) :
    (node.placements parent depth).map (fun p => (p.depth, p.node)) = node.preorder depth := by
  cases node with
  | mk directive outcome candidates children =>
    rw [placements, List.map_cons, preorder, map_placementsAll]

theorem map_placementsAll (parent : Text) (depth : Nat) (nodes : List ImportNode) :
    (placementsAll parent depth nodes).map (fun p => (p.depth, p.node))
      = preorderAll depth nodes := by
  cases nodes with
  | nil => rw [placementsAll, preorderAll, List.map_nil]
  | cons node nodes =>
    rw [placementsAll, List.map_append, preorderAll, map_placements, map_placementsAll]

end

theorem mem_placementsAll {parent : Text} {depth : Nat} {node : ImportNode}
    {nodes : List ImportNode} (h : node ∈ nodes) :
    ⟨parent, depth, node⟩ ∈ placementsAll parent depth nodes := by
  induction nodes with
  | nil => cases h
  | cons other nodes ih =>
    rw [placementsAll, placements_eq]
    rcases List.mem_cons.1 h with rfl | h
    · exact List.mem_append_left _ List.mem_cons_self
    · exact List.mem_append_right _ (ih h)

theorem placementsAll_cons (parent : Text) (depth : Nat) (node : ImportNode)
    (nodes : List ImportNode) :
    placementsAll parent depth (node :: nodes)
      = ⟨parent, depth, node⟩
        :: (placementsAll node.place (depth + 1) node.children
          ++ placementsAll parent depth nodes) := by
  rw [placementsAll, placements_eq, List.cons_append]

/-! ## Up and down -/

mutual

theorem mem_placements_of_child {parent : Text} {depth : Nat} {node : ImportNode}
    {p : Placement} {child : ImportNode} (hp : p ∈ node.placements parent depth)
    (hchild : child ∈ p.node.children) :
    ⟨p.node.place, p.depth + 1, child⟩ ∈ node.placements parent depth := by
  cases node with
  | mk directive outcome candidates children =>
    rw [placements] at hp ⊢
    refine List.mem_cons_of_mem _ ?_
    rcases List.mem_cons.1 hp with rfl | hp
    · exact mem_placementsAll hchild
    · exact mem_placementsAll_of_child hp hchild

/-- A child of a node in the list is placed below it. -/
theorem mem_placementsAll_of_child {parent : Text} {depth : Nat} {nodes : List ImportNode}
    {p : Placement} {child : ImportNode} (hp : p ∈ placementsAll parent depth nodes)
    (hchild : child ∈ p.node.children) :
    ⟨p.node.place, p.depth + 1, child⟩ ∈ placementsAll parent depth nodes := by
  cases nodes with
  | nil => rw [placementsAll] at hp; cases hp
  | cons node nodes =>
    rw [placementsAll] at hp ⊢
    rcases List.mem_append.1 hp with hp | hp
    · exact List.mem_append_left _ (mem_placements_of_child hp hchild)
    · exact List.mem_append_right _ (mem_placementsAll_of_child hp hchild)

end

/-- The placement stands right below another one. -/
def Below (q p : Placement) : Prop :=
  p.node ∈ q.node.children ∧ p.parent = q.node.place ∧ p.depth = q.depth + 1

mutual

theorem origin_of_mem_placements {parent : Text} {depth : Nat} {node : ImportNode}
    {p : Placement} (hp : p ∈ node.placements parent depth) :
    p = ⟨parent, depth, node⟩ ∨ ∃ q ∈ node.placements parent depth, Below q p := by
  cases node with
  | mk directive outcome candidates children =>
    rw [placements] at hp ⊢
    rcases List.mem_cons.1 hp with rfl | hp
    · exact Or.inl rfl
    · rcases origin_of_mem_placementsAll hp with ⟨hparent, hdepth, hnode⟩ | ⟨q, hq, hbelow⟩
      · exact Or.inr ⟨_, List.mem_cons_self, hnode, hparent, hdepth⟩
      · exact Or.inr ⟨q, List.mem_cons_of_mem _ hq, hbelow⟩

/-- And every placement that is not at the top is below another one. -/
theorem origin_of_mem_placementsAll {parent : Text} {depth : Nat} {nodes : List ImportNode}
    {p : Placement} (hp : p ∈ placementsAll parent depth nodes) :
    (p.parent = parent ∧ p.depth = depth ∧ p.node ∈ nodes) ∨
      ∃ q ∈ placementsAll parent depth nodes, Below q p := by
  cases nodes with
  | nil => rw [placementsAll] at hp; cases hp
  | cons node nodes =>
    rw [placementsAll] at hp ⊢
    rcases List.mem_append.1 hp with hp | hp
    · rcases origin_of_mem_placements hp with rfl | ⟨q, hq, hbelow⟩
      · exact Or.inl ⟨rfl, rfl, List.mem_cons_self⟩
      · exact Or.inr ⟨q, List.mem_append_left _ hq, hbelow⟩
    · rcases origin_of_mem_placementsAll hp with ⟨hparent, hdepth, hnode⟩ | ⟨q, hq, hbelow⟩
      · exact Or.inl ⟨hparent, hdepth, List.mem_cons_of_mem _ hnode⟩
      · exact Or.inr ⟨q, List.mem_append_right _ hq, hbelow⟩

end

end ImportNode

namespace ImportTree

/-- The placements of a tree; direct imports stand under the entry, at depth 1. -/
def placements (tree : ImportTree) : List Placement :=
  ImportNode.placementsAll tree.entry 1 tree.imports

/-- The uris of the stylesheets that a tree shows, each where it is first met. -/
def resolved (tree : ImportTree) : List Text :=
  tree.placements.filterMap (·.node.outcome.resolved?)

theorem map_placements (tree : ImportTree) :
    tree.placements.map (fun p => (p.depth, p.node)) = tree.preorder :=
  ImportNode.map_placementsAll tree.entry 1 tree.imports

theorem mem_resolved {tree : ImportTree} {uri : Text} :
    uri ∈ tree.resolved ↔ ∃ p ∈ tree.placements, p.node.outcome = .resolved uri := by
  simp only [resolved, List.mem_filterMap, Outcome.resolved?_eq_some]

/-- A tree is walked from its top: what holds at the top and is handed down holds everywhere. -/
theorem forall_placements {tree : ImportTree} {motive : Placement → Prop}
    (top : ∀ node ∈ tree.imports, motive ⟨tree.entry, 1, node⟩)
    (below : ∀ q ∈ tree.placements, motive q → ∀ child ∈ q.node.children,
      motive ⟨q.node.place, q.depth + 1, child⟩) :
    ∀ p ∈ tree.placements, motive p := by
  -- the one above a placement has a smaller depth
  have hdepth : ∀ (depth : Nat), ∀ p ∈ tree.placements, p.depth = depth → motive p := by
    intro depth
    induction depth using Nat.strongRecOn with
    | ind depth ih =>
      rintro ⟨parent, _, node⟩ hp rfl
      rcases ImportNode.origin_of_mem_placementsAll hp with ⟨rfl, rfl, hnode⟩ | ⟨q, hq, hbelow⟩
      · exact top node hnode
      · obtain ⟨hchild, rfl, rfl⟩ := hbelow
        exact below q hq (ih q.depth (Nat.lt_succ_self _) q hq rfl) node hchild
  exact fun p hp => hdepth p.depth p hp rfl

end ImportTree

end SheetImports
