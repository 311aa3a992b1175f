import SheetImports.Proofs.Run
import SheetImports.Proofs.Placement

/-!
# Runs with different options

Two runs over one entry differ in what their options tell apart: which depths are left unread, and
whether nodes list their candidates. If the limits of both agree at every depth where the first has
a node, the two see and report the same, and their trees are the same but for the candidates
(`follow_alike`).
-/

namespace SheetImports

namespace ImportNode

mutual

/-- The tree without the candidates of its nodes. -/
def bare : ImportNode → ImportNode
  | ⟨directive, outcome, _, children⟩ => ⟨directive, outcome, [], bareAll children⟩

/-- Sibling trees without the candidates of their nodes. -/
def bareAll : List ImportNode → List ImportNode
  | [] => []
  | node :: nodes => node.bare :: bareAll nodes

end

theorem bareAll_eq_map (nodes : List ImportNode) : bareAll nodes = nodes.map bare := by
  induction nodes with
  | nil => rfl
  | cons node nodes ih => rw [bareAll, ih, List.map_cons]

theorem placementsAll_append (parent : Text) (depth : Nat) (nodes others : List ImportNode) :
    placementsAll parent depth (nodes ++ others)
      = placementsAll parent depth nodes ++ placementsAll parent depth others := by
  induction nodes with
  | nil => rfl
  | cons node nodes ih => rw [List.cons_append, placementsAll, placementsAll, ih, List.append_assoc]

end ImportNode

/-- The tree without the candidates of its nodes. -/
def ImportTree.bare (tree : ImportTree) : ImportTree :=
  { tree with imports := ImportNode.bareAll tree.imports }

namespace Follow

open ImportNode

variable {chain : Chain} {store : Store} {options options' : FollowOptions}

/-- Nodes at the depths of these placements are left unread under both options or under neither. -/
def LimitsAgree (options options' : FollowOptions) (placements : List Placement) : Prop :=
  ∀ p ∈ placements, atLimit options p.depth = atLimit options' p.depth

/-- What two runs give is the same but for the candidates, and the same altogether if both list them
or neither does. -/
structure Alike (options options' : FollowOptions) (first second : Expansion) : Prop where
  bare : bareAll first.nodes = bareAll second.nodes
  seen : first.seen = second.seen
  events : first.events = second.events
  nodes : options.showCandidates = options'.showCandidates → first.nodes = second.nodes

theorem Alike.refl (expansion : Expansion) : Alike options options' expansion expansion :=
  ⟨rfl, rfl, rfl, fun _ => rfl⟩

/-- Runs that are alike one after the other are alike together. -/
theorem Alike.append {first first' others others' : Expansion}
    (hfirst : Alike options options' first first')
    (hothers : Alike options options' others others') :
    Alike options options'
      ⟨first.nodes ++ others.nodes, others.seen, first.events ++ others.events⟩
      ⟨first'.nodes ++ others'.nodes, others'.seen, first'.events ++ others'.events⟩ where
  bare := by
    have hbare := hfirst.bare
    have hbare' := hothers.bare
    simp only [bareAll_eq_map, List.map_append] at hbare hbare' ⊢
    rw [hbare, hbare']
  seen := hothers.seen
  events := by rw [hfirst.events, hothers.events]
  nodes hshow := by rw [hfirst.nodes hshow, hothers.nodes hshow]

/-- What becomes of one directive, as an expansion. -/
def visited (chain : Chain) (store : Store) (options : FollowOptions)
    (descend : Text → Text → List Text → Expansion) (depth : Nat) (parent : Text)
    (directive : Directive) (seen : List Text) : Expansion :=
  let (node, seen, events) := visit chain store options descend depth ⟨parent⟩ directive seen
  ⟨[node], seen, events⟩

theorem Alike.of_node {directive : Directive} {outcome : Outcome}
    {candidates candidates' : List Text}
    (hcandidates : options.showCandidates = options'.showCandidates → candidates = candidates')
    {below below' : Expansion} (hbelow : Alike options options' below below')
    (events : List Event) :
    Alike options options'
      ⟨[⟨directive, outcome, candidates, below.nodes⟩], below.seen, events ++ below.events⟩
      ⟨[⟨directive, outcome, candidates', below'.nodes⟩], below'.seen,
        events ++ below'.events⟩ where
  bare := by simp only [bareAll, ImportNode.bare, hbelow.bare]
  seen := hbelow.seen
  events := by simp only [hbelow.events]
  nodes hshow := by simp only [hcandidates hshow, hbelow.nodes hshow]

/-- One directive gives the same under both options if what is below it does. -/
theorem visited_alike {descend descend' : Text → Text → List Text → Expansion} {depth : Nat}
    {parent : Text} {directive : Directive} {seen : List Text}
    (hlimit : atLimit options depth = atLimit options' depth)
    (hbelow : ∀ source text, Enters chain store options depth parent directive seen source text →
      Alike options options' (descend source.uri text (store.key source.uri :: seen))
        (descend' source.uri text (store.key source.uri :: seen))) :
    Alike options options' (visited chain store options descend depth parent directive seen)
      (visited chain store options' descend' depth parent directive seen) := by
  have hleaf : ∀ (outcome : Outcome) (seen : List Text) (events : List Event),
      Alike options options'
        ⟨[⟨directive, outcome, shown chain options parent directive, []⟩], seen, events⟩
        ⟨[⟨directive, outcome, shown chain options' parent directive, []⟩], seen, events⟩ := by
    intro outcome seen events
    refine ⟨rfl, rfl, rfl, fun hshow => ?_⟩
    rw [shown, hshow, shown]
  unfold visited visit
  by_cases hcss : directive.kind = .plainCss
  · rw [if_pos hcss, if_pos hcss]
    exact .refl _
  have hkind := kind_eq_stylesheet hcss
  rw [if_neg hcss, if_neg hcss, ← hlimit]
  dsimp only
  split
  · exact hleaf _ _ _
  · exact hleaf _ _ _
  · next source hfound =>
    by_cases hseen : store.key source.uri ∈ seen
    · rw [if_pos hseen, if_pos hseen]
      exact hleaf _ _ _
    rw [if_neg hseen, if_neg hseen]
    by_cases hatLimit : atLimit options depth = true
    · rw [if_pos hatLimit, if_pos hatLimit]
      exact hleaf _ _ _
    rw [if_neg hatLimit, if_neg hatLimit]
    split
    · exact hleaf _ _ _
    · next text hread =>
      refine .of_node (fun hshow => ?_)
        (hbelow source text ⟨hkind, hfound, hseen, Bool.eq_false_iff.2 hatLimit, hread⟩) _
      rw [hshow]

/-- A directive that is entered gives the node over what is below it, and the events of both. -/
theorem Enters.visited_eq {depth : Nat} {parent : Text} {directive : Directive}
    {seen : List Text} {source : Source} {text : Text}
    (h : Enters chain store options depth parent directive seen source text)
    (descend : Text → Text → List Text → Expansion) :
    (visited chain store options descend depth parent directive seen).nodes
      = [⟨directive, .resolved source.uri, shown chain options parent directive,
        (descend source.uri text (store.key source.uri :: seen)).nodes⟩] := by
  obtain ⟨hkind, hfound, hfresh, hdeeper, hread⟩ := h
  have hcss : directive.kind ≠ .plainCss := by simp [hkind]
  unfold visited visit
  rw [if_neg hcss]
  unfold Follow.found at hfound
  simp [hfound, hfresh, hdeeper, hread, shown]

theorem visitAll_cons (descend : Text → Text → List Text → Expansion) (depth : Nat)
    (parent : Text) (directive : Directive) (directives : List Directive) (seen : List Text) :
    visitAll chain store options descend depth ⟨parent⟩ (directive :: directives) seen
      = let first := visited chain store options descend depth parent directive seen
        let others := visitAll chain store options descend depth ⟨parent⟩ directives first.seen
        ⟨first.nodes ++ others.nodes, others.seen, first.events ++ others.events⟩ := rfl

theorem visitAll_alike {descend descend' : Text → Text → List Text → Expansion} {depth : Nat}
    (hdescend : ∀ uri text seen,
      LimitsAgree options options' (placementsAll uri (depth + 1) (descend uri text seen).nodes) →
        Alike options options' (descend uri text seen) (descend' uri text seen))
    (parent : Text) (directives : List Directive) (seen : List Text)
    (hlimits : LimitsAgree options options' (placementsAll parent depth
      (visitAll chain store options descend depth ⟨parent⟩ directives seen).nodes)) :
    Alike options options' (visitAll chain store options descend depth ⟨parent⟩ directives seen)
      (visitAll chain store options' descend' depth ⟨parent⟩ directives seen) := by
  induction directives generalizing seen with
  | nil => exact .refl _
  | cons directive directives ih =>
    rw [visitAll_cons, placementsAll_append] at hlimits
    have hfirst : LimitsAgree options options' (placementsAll parent depth
        (visited chain store options descend depth parent directive seen).nodes) :=
      fun p hp => hlimits p (List.mem_append_left _ hp)
    have hvisited : Alike options options'
        (visited chain store options descend depth parent directive seen)
        (visited chain store options' descend' depth parent directive seen) := by
      refine visited_alike (hfirst _ (mem_placementsAll List.mem_cons_self)) ?_
      intro source text henters
      refine hdescend _ _ _ fun p hp => hfirst p ?_
      rw [henters.visited_eq, placementsAll_cons]
      exact List.mem_cons_of_mem _ (List.mem_append_left _ hp)
    rw [visitAll_cons, visitAll_cons]
    dsimp only
    rw [← hvisited.seen]
    exact hvisited.append (ih _ fun p hp => hlimits p (List.mem_append_right _ hp))

/-- By induction on the levels: every stylesheet that is entered is compared with one level less. -/
theorem expand_alike (levels : Nat) : ∀ (depth : Nat) (uri text : Text) (seen : List Text),
    LimitsAgree options options'
        (placementsAll uri depth (expand chain store options levels depth uri text seen).nodes) →
      Alike options options' (expand chain store options levels depth uri text seen)
        (expand chain store options' levels depth uri text seen) := by
  induction levels with
  | zero => exact fun _ _ _ _ _ => .refl _
  | succ levels ih =>
    exact fun depth uri text seen => visitAll_alike (ih (depth + 1)) uri _ seen

end Follow

open Follow

/-- Where the limits agree, two runs give the same tree but for the candidates, and report the same;
and they give the same altogether if both list candidates or neither does. -/
theorem follow_alike {chain : Chain} {store : Store} {options options' : FollowOptions}
    {entry text : Text}
    (hlimits : LimitsAgree options options' (follow chain store options entry text).1.placements) :
    (follow chain store options entry text).1.bare
        = (follow chain store options' entry text).1.bare ∧
      (follow chain store options entry text).2 = (follow chain store options' entry text).2 ∧
      (options.showCandidates = options'.showCandidates →
        follow chain store options entry text = follow chain store options' entry text) := by
  have halike := expand_alike (chain.keyBound store + 1) 1 entry text [store.key entry] hlimits
  refine ⟨?_, halike.events, fun hshow => ?_⟩
  · rw [ImportTree.bare, ImportTree.bare]
    exact congrArg _ halike.bare
  · rw [follow, follow, halike.events, halike.nodes hshow]

end SheetImports
