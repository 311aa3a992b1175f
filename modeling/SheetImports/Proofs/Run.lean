import SheetImports.Follow

/-!
# Runs without levels

`follow` goes through at most as many levels as the chain has keys, and one more. Here is what a run
is without that number: the directives of a stylesheet are taken in order, each is a leaf or is
entered, and what has been seen is handed on from one to the next (`Follows`). The levels are always
enough, because every directive that is entered takes one of finitely many keys (`follow_follows`).
-/

namespace SheetImports.Follow

variable {chain : Chain} {store : Store} {options : FollowOptions}

/-! ## One directive -/

/-- What a chain finds for a directive of the stylesheet at a uri. -/
def found (chain : Chain) (store : Store) (parent : Text) (directive : Directive) :
    Except ImportError (Option Source) :=
  (chain.resolve store ⟨parent⟩ directive.target).outcome

/-- The candidates that a node shows. -/
def shown (chain : Chain) (options : FollowOptions) (parent : Text) (directive : Directive) :
    List Text :=
  if options.showCandidates then chain.candidates ⟨parent⟩ directive.target else []

/-- A directive at a depth under a stylesheet that becomes a leaf, and what is seen before and
after. -/
inductive Leaf (chain : Chain) (store : Store) (options : FollowOptions) (depth : Nat)
    (parent : Text) (directive : Directive) : List Text → ImportNode → List Text → Prop
  | plainCss {seen : List Text} (hkind : directive.kind = .plainCss) :
    Leaf chain store options depth parent directive seen ⟨directive, .plainCss, [], []⟩ seen
  | notFound {seen : List Text} (hkind : directive.kind = .stylesheet)
      (hfound : found chain store parent directive = .ok none) :
    Leaf chain store options depth parent directive seen
      ⟨directive, .notFound, shown chain options parent directive, []⟩ seen
  | unopened {seen : List Text} {error : ImportError} (hkind : directive.kind = .stylesheet)
      (hfound : found chain store parent directive = .error error) :
    Leaf chain store options depth parent directive seen
      ⟨directive, .failed error.message, shown chain options parent directive, []⟩ seen
  | revisited {seen : List Text} {source : Source} (hkind : directive.kind = .stylesheet)
      (hfound : found chain store parent directive = .ok (some source))
      (hseen : store.key source.uri ∈ seen) :
    Leaf chain store options depth parent directive seen
      ⟨directive, .revisited source.uri, shown chain options parent directive, []⟩ seen
  | limited {seen : List Text} {source : Source} (hkind : directive.kind = .stylesheet)
      (hfound : found chain store parent directive = .ok (some source))
      (hfresh : store.key source.uri ∉ seen) (hlimit : atLimit options depth = true) :
    Leaf chain store options depth parent directive seen
      ⟨directive, .resolved source.uri, shown chain options parent directive, []⟩
      (store.key source.uri :: seen)
  | unreadable {seen : List Text} {source : Source} {error : ImportError}
      (hkind : directive.kind = .stylesheet)
      (hfound : found chain store parent directive = .ok (some source))
      (hfresh : store.key source.uri ∉ seen) (hdeeper : atLimit options depth = false)
      (hread : source.readText = .error error) :
    Leaf chain store options depth parent directive seen
      ⟨directive, .failed error.message, shown chain options parent directive, []⟩
      (store.key source.uri :: seen)

/-- A directive that is entered: a stylesheet that was not seen before is read. -/
structure Enters (chain : Chain) (store : Store) (options : FollowOptions) (depth : Nat)
    (parent : Text) (directive : Directive) (seen : List Text) (source : Source) (text : Text) :
    Prop where
  kind : directive.kind = .stylesheet
  found : Follow.found chain store parent directive = .ok (some source)
  fresh : store.key source.uri ∉ seen
  deeper : atLimit options depth = false
  read : source.readText = .ok text

theorem kind_eq_stylesheet {directive : Directive} (h : directive.kind ≠ .plainCss) :
    directive.kind = .stylesheet := by
  cases hkind : directive.kind with
  | stylesheet => rfl
  | plainCss => exact absurd hkind h

/-- A directive becomes a leaf or is entered. -/
theorem visit_cases (descend : Text → Text → List Text → Expansion) (depth : Nat) (parent : Text)
    (directive : Directive) (seen : List Text) :
    Leaf chain store options depth parent directive seen
        (visit chain store options descend depth ⟨parent⟩ directive seen).1
        (visit chain store options descend depth ⟨parent⟩ directive seen).2.1 ∨
      ∃ source text, Enters chain store options depth parent directive seen source text ∧
        (visit chain store options descend depth ⟨parent⟩ directive seen).1
          = ⟨directive, .resolved source.uri, shown chain options parent directive,
            (descend source.uri text (store.key source.uri :: seen)).nodes⟩ ∧
        (visit chain store options descend depth ⟨parent⟩ directive seen).2.1
          = (descend source.uri text (store.key source.uri :: seen)).seen := by
  unfold visit
  by_cases hcss : directive.kind = .plainCss
  · rw [if_pos hcss]
    exact Or.inl (.plainCss hcss)
  have hkind := kind_eq_stylesheet hcss
  rw [if_neg hcss]
  dsimp only
  split
  · next hfound => exact Or.inl (.notFound hkind hfound)
  · next error hfound => exact Or.inl (.unopened hkind hfound)
  · next source hfound =>
    by_cases hseen : store.key source.uri ∈ seen
    · rw [if_pos hseen]
      exact Or.inl (.revisited hkind hfound hseen)
    rw [if_neg hseen]
    by_cases hlimit : atLimit options depth = true
    · rw [if_pos hlimit]
      exact Or.inl (.limited hkind hfound hseen hlimit)
    rw [if_neg hlimit]
    have hdeeper : atLimit options depth = false := Bool.eq_false_iff.2 hlimit
    split
    · next error hread => exact Or.inl (.unreadable hkind hfound hseen hdeeper hread)
    · next text hread =>
      exact Or.inr ⟨source, text, ⟨hkind, hfound, hseen, hdeeper, hread⟩, rfl, rfl⟩

/-! ## All directives -/

/-- The directives of a stylesheet, taken in order at a depth, with their nodes, and what is seen
before and after. -/
inductive Follows (chain : Chain) (store : Store) (options : FollowOptions) :
    Nat → Text → List Directive → List Text → List ImportNode → List Text → Prop
  | nil {depth : Nat} {parent : Text} {seen : List Text} :
    Follows chain store options depth parent [] seen [] seen
  | leaf {depth : Nat} {parent : Text} {directive : Directive} {directives : List Directive}
      {seen seen' seen'' : List Text} {node : ImportNode} {nodes : List ImportNode}
      (hleaf : Leaf chain store options depth parent directive seen node seen')
      (hrest : Follows chain store options depth parent directives seen' nodes seen'') :
    Follows chain store options depth parent (directive :: directives) seen (node :: nodes) seen''
  | entered {depth : Nat} {parent : Text} {directive : Directive} {directives : List Directive}
      {seen seen' seen'' : List Text} {children nodes : List ImportNode} {source : Source}
      {text : Text}
      (henters : Enters chain store options depth parent directive seen source text)
      (hbelow : Follows chain store options (depth + 1) source.uri (Stylesheet.imports text)
        (store.key source.uri :: seen) children seen')
      (hrest : Follows chain store options depth parent directives seen' nodes seen'') :
    Follows chain store options depth parent (directive :: directives) seen
      (⟨directive, .resolved source.uri, shown chain options parent directive, children⟩ :: nodes)
      seen''

theorem Leaf.subset {depth : Nat} {parent : Text} {directive : Directive}
    {seen seen' : List Text} {node : ImportNode}
    (h : Leaf chain store options depth parent directive seen node seen') : seen ⊆ seen' := by
  cases h with
  | limited | unreadable => exact List.subset_cons_self _ _
  | _ => exact List.Subset.refl _

/-- A run forgets no key. -/
theorem Follows.subset {depth : Nat} {parent : Text} {directives : List Directive}
    {seen seen' : List Text} {nodes : List ImportNode}
    (h : Follows chain store options depth parent directives seen nodes seen') : seen ⊆ seen' := by
  induction h with
  | nil => exact List.Subset.refl _
  | leaf hleaf _ ih => exact List.Subset.trans hleaf.subset ih
  | entered _ _ _ ihbelow ihrest =>
    exact List.Subset.trans (List.subset_of_cons_subset ihbelow) ihrest

/-! ## Levels -/

/-- The number of keys that are still to be seen. -/
def room (keys seen : List Text) : Nat := keys.countP (!seen.contains ·)

theorem room_le (keys seen : List Text) : room keys seen ≤ keys.length :=
  List.countP_le_length

theorem room_le_of_subset (keys : List Text) {seen seen' : List Text} (h : seen ⊆ seen') :
    room keys seen' ≤ room keys seen := by
  refine List.countP_mono_left fun key _ hnew => ?_
  rw [Bool.not_eq_true', List.contains_eq_mem, decide_eq_false_iff_not] at hnew ⊢
  exact fun hold => hnew (h hold)

/-- Each fresh key takes a place among those that can be seen, so a descent ends. -/
theorem room_cons_lt {keys seen : List Text} {key : Text} (hmem : key ∈ keys)
    (hfresh : key ∉ seen) : room keys (key :: seen) < room keys seen := by
  obtain ⟨before, after, rfl⟩ := List.append_of_mem hmem
  have hbefore := room_le_of_subset before (List.subset_cons_self key seen)
  have hafter := room_le_of_subset after (List.subset_cons_self key seen)
  have hnew : room [key] seen = 1 := by simp [room, hfresh]
  have hold : room [key] (key :: seen) = 0 := by simp [room]
  have hsplit : ∀ seen, room (before ++ key :: after) seen
      = room before seen + room [key] seen + room after seen := by
    intro seen
    simp only [room, List.countP_append, List.countP_cons, List.countP_nil]
    omega
  rw [hsplit, hsplit, hnew, hold]
  omega

/-- The directives of one stylesheet are followed if the way below them is followed wherever there
is less room. -/
theorem visitAll_follows {keys : List Text}
    (hkeys : ∀ {parent : Text} {directive : Directive} {source : Source},
      found chain store parent directive = .ok (some source) → store.key source.uri ∈ keys)
    {levels depth : Nat} {descend : Text → Text → List Text → Expansion}
    (hdescend : ∀ uri text seen, room keys seen < levels →
      Follows chain store options (depth + 1) uri (Stylesheet.imports text) seen
        (descend uri text seen).nodes (descend uri text seen).seen)
    (parent : Text) (directives : List Directive) (seen : List Text)
    (hroom : room keys seen ≤ levels) :
    Follows chain store options depth parent directives seen
      (visitAll chain store options descend depth ⟨parent⟩ directives seen).nodes
      (visitAll chain store options descend depth ⟨parent⟩ directives seen).seen := by
  induction directives generalizing seen with
  | nil => exact .nil
  | cons directive directives ih =>
    rcases visit_cases descend depth parent directive seen with
      hleaf | ⟨source, text, henters, hnode, hseen⟩
    · exact .leaf hleaf (ih _ (Nat.le_trans (room_le_of_subset keys hleaf.subset) hroom))
    · -- a directive that is entered takes room, which pays for the level below it
      have hless := room_cons_lt (hkeys henters.found) henters.fresh
      have hbelow := hdescend source.uri text _ (Nat.lt_of_lt_of_le hless hroom)
      rw [← hseen] at hbelow
      have hsubset := List.Subset.trans (List.subset_cons_self _ _) hbelow.subset
      have hfollows := Follows.entered henters hbelow
        (ih _ (Nat.le_trans (room_le_of_subset keys hsubset) hroom))
      rw [← hnode] at hfollows
      exact hfollows

/-- Levels are enough if there are more of them than room. -/
theorem expand_follows {keys : List Text}
    (hkeys : ∀ {parent : Text} {directive : Directive} {source : Source},
      found chain store parent directive = .ok (some source) → store.key source.uri ∈ keys)
    (levels : Nat) :
    ∀ (depth : Nat) (uri text : Text) (seen : List Text), room keys seen < levels →
      Follows chain store options depth uri (Stylesheet.imports text) seen
        (expand chain store options levels depth uri text seen).nodes
        (expand chain store options levels depth uri text seen).seen := by
  induction levels with
  | zero =>
    intro depth uri text seen hroom
    exact absurd hroom (Nat.not_lt_zero _)
  | succ levels ih =>
    intro depth uri text seen hroom
    exact visitAll_follows hkeys (ih (depth + 1)) uri _ seen (Nat.le_of_lt_succ hroom)

/-- The import tree of an entry is what a run without levels gives. -/
theorem follow_follows (chain : Chain) (store : Store) (options : FollowOptions)
    (entry text : Text) :
    ∃ seen, Follows chain store options 1 entry (Stylesheet.imports text) [store.key entry]
      (follow chain store options entry text).1.imports seen := by
  obtain ⟨keys, hlength, hkeys⟩ := chain.exists_keys store
  refine ⟨_, expand_follows hkeys (chain.keyBound store + 1) 1 entry text _ ?_⟩
  exact Nat.lt_succ_of_le (Nat.le_trans (room_le keys _) hlength)

end SheetImports.Follow
