import SheetImports.Proofs.Octets
import SheetImports.Tree.Render

/-!
# The shape of a drawn tree

A tree is drawn in rows: a line for each node, in the order in which nodes are shown, and one for
each of its candidates. A row depends on where its node stands (`Position`): which of its ancestors
are the last of their siblings, and whether it is itself. Cells, branches and what stands before a
candidate differ in their first four columns, so a line is taken apart in one way only
(`flatMap_cancel`), and rows are read off their lines (`rows_cancel`). Targets are quoted, so each
row is on lines of its own, and the rows are read off the text (`ImportTree.render_rows`).
-/

namespace SheetImports

/-! ## Positions -/

/-- A node where it stands: which of its ancestors are the last of their siblings, outermost first,
and whether it is the last of its own. -/
structure Position where
  above : List Bool
  isLast : Bool
  node : ImportNode

/-- The node stands there in the tree with these nodes at the top. -/
inductive Stands (top : List ImportNode) : Position → Prop
  | top {before after : List ImportNode} {node : ImportNode}
      (h : top = before ++ node :: after) : Stands top ⟨[], after.isEmpty, node⟩
  | child {p : Position} {before after : List ImportNode} {node : ImportNode} (hp : Stands top p)
      (h : p.node.children = before ++ node :: after) :
      Stands top ⟨p.above ++ [p.isLast], after.isEmpty, node⟩

namespace ImportNode

mutual

/-- The positions in a tree in the order in which its nodes are shown. -/
def positions (above : List Bool) (isLast : Bool) : ImportNode → List Position
  | ⟨directive, outcome, candidates, children⟩ =>
    ⟨above, isLast, ⟨directive, outcome, candidates, children⟩⟩
      :: positionsAll (above ++ [isLast]) children

/-- The positions in sibling trees. -/
def positionsAll (above : List Bool) : List ImportNode → List Position
  | [] => []
  | node :: nodes => node.positions above nodes.isEmpty ++ positionsAll above nodes

end

mutual

/-- The positions of a node are those of itself and its descendants, in the order in which they are
shown. -/
theorem map_positions (above : List Bool) (isLast : Bool) (node : ImportNode) :
    (node.positions above isLast).map (fun p => (p.above.length + 1, p.node))
      = node.preorder (above.length + 1) := by
  cases node with
  | mk directive outcome candidates children =>
    have hbelow := map_positionsAll (above ++ [isLast]) children
    rw [List.length_append, List.length_singleton] at hbelow
    rw [positions, List.map_cons, hbelow, preorder]

theorem map_positionsAll (above : List Bool) (nodes : List ImportNode) :
    (positionsAll above nodes).map (fun p => (p.above.length + 1, p.node))
      = preorderAll (above.length + 1) nodes := by
  cases nodes with
  | nil => rw [positionsAll, preorderAll, List.map_nil]
  | cons node nodes =>
    rw [positionsAll, List.map_append, preorderAll, map_positions, map_positionsAll]

end

mutual

/-- Below a node that stands where its position says, all nodes do. -/
theorem stands_positions {top : List ImportNode} {above : List Bool} {isLast : Bool}
    {node : ImportNode} (h : Stands top ⟨above, isLast, node⟩) :
    ∀ p ∈ node.positions above isLast, Stands top p := by
  cases node with
  | mk directive outcome candidates children =>
    intro p hp
    rw [positions] at hp
    rcases List.mem_cons.1 hp with rfl | hp
    · exact h
    · exact stands_positionsAll (List.nil_append children).symm (fun hchild => .child h hchild) p hp

theorem stands_positionsAll {top siblings before nodes : List ImportNode} {above : List Bool}
    (hsiblings : siblings = before ++ nodes)
    (h : ∀ {first rest : List ImportNode} {node : ImportNode}, siblings = first ++ node :: rest →
      Stands top ⟨above, rest.isEmpty, node⟩) :
    ∀ p ∈ positionsAll above nodes, Stands top p := by
  cases nodes with
  | nil => exact fun p hp => absurd hp List.not_mem_nil
  | cons node nodes =>
    intro p hp
    rw [positionsAll] at hp
    rcases List.mem_append.1 hp with hp | hp
    · exact stands_positions (h hsiblings) p hp
    · exact stands_positionsAll (hsiblings.trans (List.append_cons before node nodes)) h p hp

end

end ImportNode

/-- The positions in a tree in the order in which its nodes are shown. -/
def ImportTree.positions (tree : ImportTree) : List Position :=
  ImportNode.positionsAll [] tree.imports

/-! ## Rows -/

/-- What a node and its candidates are drawn as: the marks of its ancestors and its own, what its
line says, and what the lines of its candidates say. -/
structure Row where
  above : List Bool
  isLast : Bool
  label : Text
  tried : List Text
  deriving DecidableEq

/-- The row of the node that stands there. -/
def Position.row (base : Text) (p : Position) : Row where
  above := p.above
  isLast := p.isLast
  label := ImportNode.label base p.node.directive p.node.outcome
  tried := p.node.candidates.map (Uri.shorten base)

/-- The line of a node: a cell for each of its ancestors, a branch and what it says. -/
def nodeLine (above : List Bool) (isLast : Bool) (label : Text) : Text :=
  above.flatMap cell ++ branch isLast ++ label

/-- The line of a candidate: a cell for each ancestor of its node and for the node. -/
def triedLine (marks : List Bool) (uri : Text) : Text :=
  marks.flatMap cell ++ "  tried: ".toList ++ uri

def Row.lines (row : Row) : List Text :=
  nodeLine row.above row.isLast row.label
    :: row.tried.map (triedLine (row.above ++ [row.isLast]))

namespace ImportNode

mutual

theorem lines_eq (base : Text) (above : List Bool) (isLast : Bool) (node : ImportNode) :
    node.lines base (above.flatMap cell) isLast
      = (node.positions above isLast).flatMap fun p => (p.row base).lines := by
  cases node with
  | mk directive outcome candidates children =>
    have hcolumns : above.flatMap cell ++ cell isLast = (above ++ [isLast]).flatMap cell := by
      rw [List.flatMap_append, List.flatMap_singleton]
    rw [lines, hcolumns, linesAll_eq, positions, List.flatMap_cons, Row.lines, Position.row,
      List.map_map]
    rfl

/-- What is drawn in front of a node and of its candidates depends on its position alone. -/
theorem linesAll_eq (base : Text) (above : List Bool) (nodes : List ImportNode) :
    linesAll base (above.flatMap cell) nodes
      = (positionsAll above nodes).flatMap fun p => (p.row base).lines := by
  cases nodes with
  | nil => rw [linesAll, positionsAll, List.flatMap_nil]
  | cons node nodes =>
    rw [linesAll, lines_eq, linesAll_eq, positionsAll, List.flatMap_append]

end

end ImportNode

/-! ## Reading rows -/

/-- Words that are told apart by how they begin are taken off a list in one way only, up to what
does not begin with one. -/
theorem flatMap_cancel {α β : Type} {word : α → List β}
    (hword : ∀ {a b : α} {x y : List β}, word a ++ x = word b ++ y → a = b)
    {first first' : List α} {rest rest' : List β}
    (h : first.flatMap word ++ rest = first'.flatMap word ++ rest')
    (hrest : ∀ a, ¬ word a <+: rest) (hrest' : ∀ a, ¬ word a <+: rest') :
    first = first' ∧ rest = rest' := by
  induction first generalizing first' with
  | nil =>
    cases first' with
    | nil => exact ⟨rfl, h⟩
    | cons b first' =>
      rw [List.flatMap_nil, List.nil_append, List.flatMap_cons, List.append_assoc] at h
      exact absurd ⟨_, h.symm⟩ (hrest b)
  | cons a first ih =>
    cases first' with
    | nil =>
      rw [List.flatMap_nil, List.nil_append, List.flatMap_cons, List.append_assoc] at h
      exact absurd ⟨_, h⟩ (hrest' a)
    | cons b first' =>
      rw [List.flatMap_cons, List.flatMap_cons, List.append_assoc, List.append_assoc] at h
      obtain rfl := hword h
      obtain ⟨rfl, hsame⟩ := ih (List.append_cancel_left h)
      exact ⟨rfl, hsame⟩

theorem cell_cancel {isLast isLast' : Bool} {x y : Text}
    (h : cell isLast ++ x = cell isLast' ++ y) : isLast = isLast' := by
  cases isLast <;> cases isLast'
  · rfl
  · exact absurd (List.cons.inj h).1 (by decide)
  · exact absurd (List.cons.inj h).1 (by decide)
  · rfl

theorem branch_cancel {isLast isLast' : Bool} {x y : Text}
    (h : branch isLast ++ x = branch isLast' ++ y) : isLast = isLast' := by
  cases isLast <;> cases isLast'
  · rfl
  · exact absurd (List.cons.inj h).1 (by decide)
  · exact absurd (List.cons.inj h).1 (by decide)
  · rfl

theorem branch_ne_tried {isLast : Bool} {x y : Text} :
    branch isLast ++ x ≠ "  tried: ".toList ++ y := by
  intro h
  cases isLast <;> exact absurd (List.cons.inj h).1 (by decide)

theorem cell_not_prefix_branch (isLast isLast' : Bool) (text : Text) :
    ¬ cell isLast <+: branch isLast' ++ text := by
  rintro ⟨rest, hrest⟩
  cases isLast <;> cases isLast' <;> exact absurd (List.cons.inj hrest).1 (by decide)

theorem cell_not_prefix_tried (isLast : Bool) (text : Text) :
    ¬ cell isLast <+: "  tried: ".toList ++ text := by
  rintro ⟨rest, hrest⟩
  cases isLast with
  | false => exact absurd (List.cons.inj hrest).1 (by decide)
  | true =>
    -- the third column tells them apart
    cases hrest

/-- The line of a node says where it stands and what its label is. -/
theorem nodeLine_cancel {above above' : List Bool} {isLast isLast' : Bool} {label label' : Text}
    (h : nodeLine above isLast label = nodeLine above' isLast' label') :
    above = above' ∧ isLast = isLast' ∧ label = label' := by
  rw [nodeLine, nodeLine, List.append_assoc, List.append_assoc] at h
  obtain ⟨rfl, hrest⟩ := flatMap_cancel cell_cancel h (cell_not_prefix_branch · isLast label)
    (cell_not_prefix_branch · isLast' label')
  obtain rfl := branch_cancel hrest
  exact ⟨rfl, rfl, List.append_cancel_left hrest⟩

/-- No line of a node is one of a candidate. -/
theorem nodeLine_ne_triedLine (above marks : List Bool) (isLast : Bool) (label uri : Text) :
    nodeLine above isLast label ≠ triedLine marks uri := by
  intro h
  rw [nodeLine, triedLine, List.append_assoc, List.append_assoc] at h
  obtain ⟨-, hrest⟩ := flatMap_cancel cell_cancel h (cell_not_prefix_branch · isLast label)
    (cell_not_prefix_tried · uri)
  exact branch_ne_tried hrest

/-- No row begins like the line of a candidate, so the candidates of a row end where the next one
begins. -/
theorem not_prefix_triedLine (marks : List Bool) (rows : List Row) (uri : Text) :
    ¬ [triedLine marks uri] <+: rows.flatMap Row.lines := by
  rintro ⟨rest, hrest⟩
  cases rows with
  | nil => cases hrest
  | cons row rows =>
    exact nodeLine_ne_triedLine row.above marks row.isLast row.label uri
      (List.cons.inj hrest).1.symm

/-- Rows are read off their lines. -/
theorem rows_cancel {rows rows' : List Row}
    (h : rows.flatMap Row.lines = rows'.flatMap Row.lines) : rows = rows' := by
  induction rows generalizing rows' with
  | nil =>
    cases rows' with
    | nil => rfl
    | cons row' rows' => cases h
  | cons row rows ih =>
    cases rows' with
    | nil => cases h
    | cons row' rows' =>
      obtain ⟨above, isLast, label, tried⟩ := row
      obtain ⟨above', isLast', label', tried'⟩ := row'
      rw [List.flatMap_cons, List.flatMap_cons] at h
      obtain ⟨hline, hafter⟩ := List.cons.inj h
      obtain ⟨rfl, rfl, rfl⟩ := nodeLine_cancel hline
      have htried : tried.map (triedLine (above ++ [isLast])) ++ rows.flatMap Row.lines
          = tried'.map (triedLine (above ++ [isLast])) ++ rows'.flatMap Row.lines := hafter
      have hcancel : ∀ {uri uri' : Text} {x y : List Text},
          [triedLine (above ++ [isLast]) uri] ++ x = [triedLine (above ++ [isLast]) uri'] ++ y →
            uri = uri' :=
        fun hsame => List.append_cancel_left (List.cons.inj hsame).1
      -- what follows the candidates is the line of a node or the end, so both lists end there
      rw [List.map_eq_flatMap, List.map_eq_flatMap] at htried
      obtain ⟨rfl, hrest⟩ := flatMap_cancel hcancel htried (not_prefix_triedLine _ rows)
        (not_prefix_triedLine _ rows')
      rw [ih hrest]

/-! ## Parts without line feeds -/

/-- What an outcome says in words that are not its own. -/
def Outcome.words : Outcome → Text
  | resolved uri => uri
  | revisited uri => uri
  | failed message => message
  | _ => []

/-- No uri, candidate or message of the tree holds a line feed. Targets may. -/
structure ImportTree.OneLine (tree : ImportTree) : Prop where
  entry : '\n' ∉ tree.entry
  outcomes : ∀ p ∈ tree.preorder, '\n' ∉ p.2.outcome.words
  candidates : ∀ p ∈ tree.preorder, ∀ uri ∈ p.2.candidates, '\n' ∉ uri

theorem lineFeed_notMem_toDigits {b : Nat} (hb : 1 < b) (hle : b ≤ 16) (n : Nat) :
    '\n' ∉ Nat.toDigits b n := by
  have hdigit : ∀ d < 16, Nat.digitChar d ≠ '\n' := by decide
  induction n using Nat.strongRecOn with
  | ind n ih =>
    rw [Nat.toDigits_eq_if hb]
    split
    next hlt => exact fun h => hdigit n (by omega) (List.mem_singleton.1 h).symm
    next hge =>
      intro h
      rcases List.mem_append.1 h with h | h
      · exact ih (n / b) (Nat.div_lt_self (by omega) hb) h
      · have hmod := Nat.mod_lt n (by omega : 0 < b)
        exact hdigit (n % b) (by omega) (List.mem_singleton.1 h).symm

theorem lineFeed_notMem_ofNat (n : Nat) : '\n' ∉ Text.ofNat n :=
  lineFeed_notMem_toDigits (by decide) (by decide) n

theorem lineFeed_notMem_escape (c : Char) : '\n' ∉ Text.escape c := by
  unfold Text.escape
  split
  case h_7 _ _ _ hfeed _ _ =>
    split
    · have hnumber : '\n' ∉ Text.ofNatHex c.toNat :=
        lineFeed_notMem_toDigits (by decide) (by decide) _
      exact List.not_mem_append (List.not_mem_append (by decide) hnumber) (by decide)
    · exact fun h => hfeed (List.mem_singleton.1 h).symm
  all_goals decide

/-- A quoted text is on one line, whatever it quotes. -/
theorem lineFeed_notMem_quoted (text : Text) : '\n' ∉ text.quoted := by
  intro h
  simp only [Text.quoted, List.mem_append, List.mem_flatMap, List.mem_singleton] at h
  rcases h with (h | ⟨c, -, h⟩) | h
  · cases h
  · exact lineFeed_notMem_escape c h
  · cases h

theorem Uri.shorten_suffix (base uri : Text) : Uri.shorten base uri <:+ uri := by
  simp only [Uri.shorten]
  split
  · exact List.suffix_refl uri
  · split
    next c rest hcut =>
      refine ⟨base.trimEnd (· == '/') ++ ['/'], ?_⟩
      rw [List.append_assoc, List.singleton_append]
      exact Text.append_of_isPrefixOf? hcut
    next => exact List.suffix_refl uri

theorem lineFeed_notMem_shorten (base : Text) {uri : Text} (h : '\n' ∉ uri) :
    '\n' ∉ Uri.shorten base uri := fun hmem => h ((Uri.shorten_suffix base uri).subset hmem)

theorem lineFeed_notMem_columns (marks : List Bool) : '\n' ∉ marks.flatMap cell := by
  intro h
  obtain ⟨isLast, -, h⟩ := List.mem_flatMap.1 h
  cases isLast <;> exact absurd h (by decide)

theorem lineFeed_notMem_branch (isLast : Bool) : '\n' ∉ branch isLast := by
  cases isLast <;> decide

theorem lineFeed_notMem_outcome (base : Text) {outcome : Outcome} (h : '\n' ∉ outcome.words) :
    '\n' ∉ outcome.render base := by
  cases outcome with
  | resolved uri => exact List.not_mem_append (by decide) (lineFeed_notMem_shorten base h)
  | revisited uri =>
    have huri : '\n' ∉ " → ".toList ++ Uri.shorten base uri :=
      List.not_mem_append (by decide) (lineFeed_notMem_shorten base h)
    have hshown : '\n' ∉ " (already shown)".toList := by decide
    exact List.not_mem_append huri hshown
  | notFound =>
    have hnotFound : '\n' ∉ " ✗ not found".toList := by decide
    exact hnotFound
  | plainCss =>
    have hplain : '\n' ∉ " (plain css)".toList := by decide
    exact hplain
  | failed message => exact List.not_mem_append (by decide) h

/-- A label quotes its target, so nothing but the words of its outcome could break it. -/
theorem lineFeed_notMem_label (base : Text) (directive : Directive) {outcome : Outcome}
    (h : '\n' ∉ outcome.words) : '\n' ∉ ImportNode.label base directive outcome := by
  have htarget : '\n' ∉ directive.target.quoted ++ "  [L".toList :=
    List.not_mem_append (lineFeed_notMem_quoted directive.target) (by decide)
  have hline : '\n' ∉ directive.target.quoted ++ "  [L".toList ++ Text.ofNat directive.line :=
    List.not_mem_append htarget (lineFeed_notMem_ofNat directive.line)
  exact List.not_mem_append (List.not_mem_append hline (by decide)) (lineFeed_notMem_outcome base h)

theorem lineFeed_notMem_nodeLine (above : List Bool) (isLast : Bool) {label : Text}
    (h : '\n' ∉ label) : '\n' ∉ nodeLine above isLast label :=
  List.not_mem_append (List.not_mem_append (lineFeed_notMem_columns above)
    (lineFeed_notMem_branch isLast)) h

theorem lineFeed_notMem_triedLine (marks : List Bool) {uri : Text} (h : '\n' ∉ uri) :
    '\n' ∉ triedLine marks uri :=
  List.not_mem_append (List.not_mem_append (lineFeed_notMem_columns marks) (by decide)) h

namespace ImportTree

/-- The rows in which a tree is drawn. -/
def rows (base : Text) (tree : ImportTree) : List Row := tree.positions.map (·.row base)

theorem lines_eq (base : Text) (tree : ImportTree) :
    tree.lines base = tree.header base ::
      if tree.imports.isEmpty then [] else ['│'] :: (tree.rows base).flatMap Row.lines := by
  rw [lines, rows, List.flatMap_map, positions, ← ImportNode.linesAll_eq, List.flatMap_nil]

theorem rows_eq_nil {tree : ImportTree} (h : tree.imports.isEmpty = true) (base : Text) :
    tree.rows base = [] := by
  rw [rows, positions, List.isEmpty_iff.1 h, ImportNode.positionsAll, List.map_nil]

namespace OneLine

variable {tree : ImportTree}

theorem header_oneLine (h : tree.OneLine) (base : Text) : '\n' ∉ tree.header base := by
  have hentry : '\n' ∉ Uri.shorten base tree.entry ++ "  (".toList :=
    List.not_mem_append (lineFeed_notMem_shorten base h.entry) (by decide)
  have hnoun :
      '\n' ∉ if tree.imports.length = 1 then " import)".toList else " imports)".toList := by
    split <;> decide
  exact List.not_mem_append (List.not_mem_append hentry (lineFeed_notMem_ofNat _)) hnoun

theorem row_oneLine (h : tree.OneLine) (base : Text) :
    ∀ row ∈ tree.rows base, ∀ line ∈ row.lines, '\n' ∉ line := by
  intro row hrow line hline
  obtain ⟨p, hp, rfl⟩ := List.mem_map.1 hrow
  have hmem : (p.above.length + 1, p.node) ∈ tree.preorder := by
    have hshown := List.mem_map_of_mem (f := fun p : Position => (p.above.length + 1, p.node)) hp
    rwa [positions, ImportNode.map_positionsAll] at hshown
  rcases List.mem_cons.1 hline with rfl | hline
  · exact lineFeed_notMem_nodeLine _ _ (lineFeed_notMem_label base _ (h.outcomes _ hmem))
  · obtain ⟨shown, hshown, rfl⟩ := List.mem_map.1 hline
    obtain ⟨uri, huri, rfl⟩ := List.mem_map.1 hshown
    exact lineFeed_notMem_triedLine _ (lineFeed_notMem_shorten base (h.candidates _ hmem uri huri))

theorem lines_oneLine (h : tree.OneLine) (base : Text) : ∀ line ∈ tree.lines base, '\n' ∉ line := by
  rw [lines_eq]
  intro line hline
  rcases List.mem_cons.1 hline with rfl | hline
  · exact h.header_oneLine base
  · split at hline
    · cases hline
    · rcases List.mem_cons.1 hline with rfl | hline
      · decide
      · obtain ⟨row, hrow, hline⟩ := List.mem_flatMap.1 hline
        exact h.row_oneLine base row hrow line hline

end OneLine

/-- Texts that hold no line feed are the lines of what they are written to, one under the other. -/
theorem splitOn_lines {lines : List Text} (h : ∀ line ∈ lines, '\n' ∉ line) :
    (lines.flatMap (· ++ ['\n'])).splitOn '\n' = lines ++ [[]] := by
  induction lines with
  | nil => rfl
  | cons line lines ih =>
    have hline : line.splitOn '\n' = [line] := Text.splitOn_of_notMem (h line List.mem_cons_self)
    have hlines := ih fun other hother => h other (List.mem_cons_of_mem line hother)
    rw [List.flatMap_cons, List.append_assoc, List.singleton_append, List.splitOn_append_cons_self,
      hline, hlines]
    rfl

/-- The lines of a drawn tree are read off its text. -/
theorem splitOn_render {tree : ImportTree} (h : tree.OneLine) (base : Text) :
    (tree.render base).splitOn '\n' = tree.lines base ++ [[]] :=
  splitOn_lines (h.lines_oneLine base)

/-- The text says what the first line and the rows of the tree are. -/
theorem rows_of_render {tree other : ImportTree} {base base' : Text} (h : tree.OneLine)
    (hother : other.OneLine) (hsame : other.render base' = tree.render base) :
    other.header base' = tree.header base ∧ other.rows base' = tree.rows base := by
  have hlines : other.lines base' = tree.lines base := by
    have hsplit := congrArg (List.splitOn '\n') hsame
    rw [splitOn_render h, splitOn_render hother] at hsplit
    exact List.append_cancel_right hsplit
  rw [lines_eq, lines_eq] at hlines
  obtain ⟨hheader, hrest⟩ := List.cons.inj hlines
  refine ⟨hheader, ?_⟩
  split at hrest
  next hnone =>
    split at hrest
    next hnone' => rw [rows_eq_nil hnone, rows_eq_nil hnone']
    next => cases hrest
  next =>
    split at hrest
    next => cases hrest
    next => exact rows_cancel (List.cons.inj hrest).2

/-- A tree is drawn line by line: the first line, a bar if there are imports, and the rows of its
nodes in the order in which they are shown, each under the marks of its ancestors. The rows can be
read off the text, whatever stands in the targets. -/
theorem render_rows {tree : ImportTree} (h : tree.OneLine) (base : Text) :
    (tree.render base).splitOn '\n' = tree.header base ::
        (if tree.imports.isEmpty then [] else ['│'] :: (tree.rows base).flatMap Row.lines)
          ++ [[]] ∧
      tree.positions.map (fun p => (p.above.length + 1, p.node)) = tree.preorder ∧
      (∀ p ∈ tree.positions, Stands tree.imports p) ∧
      ∀ (other : ImportTree) (base' : Text), other.OneLine →
        other.render base' = tree.render base →
          other.header base' = tree.header base ∧ other.rows base' = tree.rows base := by
  refine ⟨?_, ?_, ?_, fun other base' => rows_of_render h⟩
  · rw [splitOn_render h, lines_eq]
  · exact ImportNode.map_positionsAll [] tree.imports
  · exact ImportNode.stands_positionsAll (List.nil_append _).symm fun htop => .top htop

/-- A tree with targets that look like lines of a drawing, its stylesheets in a directory. -/
def disguised (directory : Text) : ImportTree where
  entry := directory ++ "main.scss".toList
  imports := [
    ⟨⟨"\n└── \"".toList, 1, .stylesheet⟩, .resolved (directory ++ "a.scss".toList),
      [directory ++ "a.scss".toList, directory ++ "_a.scss".toList],
      [⟨⟨"├─".toList, 2, .stylesheet⟩, .failed "└── no".toList, ["  tried: ".toList], []⟩]⟩,
    ⟨⟨" ".toList, 3, .plainCss⟩, .plainCss, [], []⟩]

/-- Seen from its directory, it is drawn like the tree without a directory. -/
theorem render_rows_disguised :
    (disguised "/proj/".toList).OneLine ∧ (disguised []).OneLine ∧
      (disguised []).render [] = (disguised "/proj/".toList).render "/proj".toList ∧
      ((disguised "/proj/".toList).render "/proj".toList).splitOn '\n' =
        ["main.scss  (2 imports)".toList,
          "│".toList,
          "├── \"\\n└── \\\"\"  [L1] → a.scss".toList,
          "│     tried: a.scss".toList,
          "│     tried: _a.scss".toList,
          "│   └── \"├─\"  [L2] ✗ └── no".toList,
          "│         tried:   tried: ".toList,
          "└── \" \"  [L3] (plain css)".toList, []] ∧
      (disguised []).rows [] = (disguised "/proj/".toList).rows "/proj".toList := by
  have hinside : (disguised "/proj/".toList).OneLine :=
    ⟨by decide, forall_mem_of_all (by decide +kernel), forall_mem_of_all (by decide +kernel)⟩
  have hbare : (disguised []).OneLine :=
    ⟨by decide, forall_mem_of_all (by decide +kernel), forall_mem_of_all (by decide +kernel)⟩
  have hsame : (disguised []).render [] = (disguised "/proj/".toList).render "/proj".toList := by
    decide +kernel
  obtain ⟨hlines, -, -, hrows⟩ := render_rows hinside "/proj".toList
  refine ⟨hinside, hbare, hsame, ?_, (hrows (disguised []) [] hbare hsame).2⟩
  rw [hlines]
  decide +kernel

end ImportTree

end SheetImports
