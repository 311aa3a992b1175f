import Mathlib.Data.List.MinMax
import SheetImports.Proofs.Reachable
import SheetImports.Proofs.TwoRuns
import SheetImports.Strategy.Faulty

/-!
# How deep a limit lets a tree be

No node stands below the limit, and those at the limit have no children; a limit of no levels is one
of one level. A limit is felt only where nodes stand at its depth or below: a tree that is less high
than its limit is the tree without a limit (`follow_limited`). A tree that is just as high is not,
because what stands at the limit is not read (`follow_limited_broken`).
-/

namespace SheetImports

open Follow

/-- The depth of the deepest node of a tree, and zero if there is none. -/
def ImportTree.height (tree : ImportTree) : Nat := (tree.preorder.map (·.1)).foldr max 0

/-- The height bounds the depth of every node. -/
theorem ImportTree.depth_le_height {tree : ImportTree} {p : Placement} (h : p ∈ tree.placements) :
    p.depth ≤ tree.height := by
  refine List.le_max_of_le' 0 ?_ (Nat.le_refl _)
  rw [← tree.map_placements, List.map_map]
  exact List.mem_map_of_mem h

namespace Follow

theorem atLimit_none {options : FollowOptions} (h : options.maxDepth = none) (depth : Nat) :
    atLimit options depth = false := by
  rw [atLimit, h]
  rfl

theorem atLimit_some {options : FollowOptions} {n : Nat} (h : options.maxDepth = some n)
    (depth : Nat) : atLimit options depth = decide (n ≤ depth) := by
  rw [atLimit, h]
  rfl

end Follow

/-- A node that has children stands above the limit. -/
theorem depth_lt_of_child {chain : Chain} {store : Store} {options : FollowOptions}
    {entry text : Text} {n : Nat} (hlimit : options.maxDepth = some n) {p : Placement}
    (hp : p ∈ (follow chain store options entry text).1.placements) {child : ImportNode}
    (hchild : child ∈ p.node.children) : p.depth < n := by
  obtain ⟨uri, -, hdeeper⟩ := (follow_accounted chain store options entry text p hp).of_child hchild
  rw [atLimit_some hlimit] at hdeeper
  simpa using hdeeper

/-- Imports of the entry are shown under any limit, so one level is the least. -/
theorem depth_le_of_limit {chain : Chain} {store : Store} {options : FollowOptions}
    {entry text : Text} {n : Nat} (hlimit : options.maxDepth = some n) :
    ∀ p ∈ (follow chain store options entry text).1.placements, p.depth ≤ max n 1 := by
  refine ImportTree.forall_placements (fun _ _ => Nat.le_max_right n 1) ?_
  intro q hq _ child hchild
  have hless := depth_lt_of_child hlimit hq hchild
  dsimp only
  omega

/-- With a limit no node stands deeper than it, or deeper than direct imports, and no node that
stands there has children. A limit that exceeds the height of the tree makes no difference. -/
theorem follow_limited (chain : Chain) (store : Store) (showCandidates : Bool) (entry text : Text)
    (n : Nat) :
    (∀ q ∈ (follow chain store ⟨some n, showCandidates⟩ entry text).1.preorder,
        q.1 ≤ max n 1 ∧ (q.1 = max n 1 → q.2.children = [])) ∧
      ((follow chain store ⟨none, showCandidates⟩ entry text).1.height < n →
        follow chain store ⟨some n, showCandidates⟩ entry text
          = follow chain store ⟨none, showCandidates⟩ entry text) := by
  constructor
  · intro q hq
    rw [← ImportTree.map_placements] at hq
    obtain ⟨p, hp, rfl⟩ := List.mem_map.1 hq
    refine ⟨depth_le_of_limit rfl p hp, fun hdepth => List.eq_nil_iff_forall_not_mem.2 ?_⟩
    intro child hchild
    have hless := depth_lt_of_child rfl hp hchild
    dsimp only at hdepth
    omega
  · intro hheight
    -- no node of the tree without limit stands where the limit would be felt
    have hlimits : LimitsAgree ⟨none, showCandidates⟩ ⟨some n, showCandidates⟩
        (follow chain store ⟨none, showCandidates⟩ entry text).1.placements := by
      intro p hp
      have hless := Nat.lt_of_le_of_lt (ImportTree.depth_le_height hp) hheight
      rw [atLimit_none rfl, atLimit_some rfl, eq_comm, decide_eq_false_iff_not]
      exact Nat.not_le_of_lt hless
    exact ((follow_alike hlimits).2.2 rfl).symm

/-- A stylesheet that cannot be read. -/
def broken : FaultyBundle where
  bundle := {}
  openFaults := []
  readFaults := [("/a.scss".toList, .other "broken".toList)]

theorem follow_limited_broken :
    follow [.faulty broken] .empty ⟨some 2, true⟩ "/main.scss".toList "@import 'a';".toList
        = follow [.faulty broken] .empty ⟨none, true⟩ "/main.scss".toList "@import 'a';".toList ∧
      (follow [.faulty broken] .empty ⟨none, true⟩ "/main.scss".toList
        "@import 'a';".toList).1.height = 1 ∧
      (follow [.faulty broken] .empty ⟨some 1, true⟩ "/main.scss".toList
        "@import 'a';".toList).1.preorder.map (·.2.outcome) = [.resolved "/a.scss".toList] ∧
      (follow [.faulty broken] .empty ⟨none, true⟩ "/main.scss".toList
        "@import 'a';".toList).1.preorder.map (·.2.outcome)
          = [.failed "/a.scss: broken".toList] := by
  have hheight : (follow [.faulty broken] .empty ⟨none, true⟩ "/main.scss".toList
      "@import 'a';".toList).1.height = 1 := by
    decide +kernel
  refine ⟨(follow_limited _ _ _ _ _ 2).2 ?_, hheight, by decide +kernel, by decide +kernel⟩
  rw [hheight]
  exact Nat.lt_succ_self 1

end SheetImports
