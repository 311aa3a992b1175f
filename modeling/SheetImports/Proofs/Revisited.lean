import Mathlib.Data.List.Nodup
import Mathlib.Data.List.Pairwise
import SheetImports.Proofs.Seen
import SheetImports.Strategy.Faulty

/-!
# What a revisited node repeats

In the order in which nodes are shown, what has been seen grows by one key at a time: a node takes
the key of the stylesheet that it shows for the first time, and also that of one which was found but
could not be read (`taken`). No key is taken twice, and a node is revisited only if the key of its
stylesheet is that of the entry or was taken before it (`Follows.walk`). So a revisited stylesheet
is shown above, unless the node above that took its key could not read it
(`follow_revisited_shown_iff`).
-/

namespace SheetImports

namespace Follow

open ImportNode

variable {chain : Chain} {store : Store} {options : FollowOptions}

/-! ## Keys that are taken -/

/-- The key that is seen from a placement on: that of a stylesheet which it shows for the first
time, or which was found for it without being shown. -/
def taken (chain : Chain) (store : Store) (p : Placement) : Option Text :=
  match p.node.outcome with
  | .resolved uri => some (store.key uri)
  | .failed _ =>
    match found chain store p.parent p.node.directive with
    | .ok (some source) => some (store.key source.uri)
    | _ => none
  | _ => none

/-- The stylesheet with the key is found for a placement, and it cannot be read. -/
def Unread (chain : Chain) (store : Store) (p : Placement) (key : Text) : Prop :=
  ∃ source error, found chain store p.parent p.node.directive = .ok (some source) ∧
    store.key source.uri = key ∧ source.readText = .error error ∧
    p.node.outcome = .failed error.message

/-- What is seen before a placement agrees with what it says. -/
structure Agrees (chain : Chain) (store : Store) (seen : List Text) (p : Placement) : Prop where
  old : ∀ uri, p.node.outcome = .revisited uri → store.key uri ∈ seen
  fresh : ∀ key, taken chain store p = some key → key ∉ seen

theorem taken_of_unread {p : Placement} {key : Text} (h : Unread chain store p key) :
    taken chain store p = some key := by
  obtain ⟨source, error, hfound, rfl, -, houtcome⟩ := h
  simp only [taken, houtcome, hfound]

theorem taken_of_resolved {p : Placement} {uri : Text} (h : p.node.outcome = .resolved uri) :
    taken chain store p = some (store.key uri) := by
  simp only [taken, h]

/-- A key is taken by a stylesheet that is shown, or by one that cannot be read. -/
theorem Accounted.taken_cases {p : Placement} (h : Accounted chain store options p) {key : Text}
    (hkey : taken chain store p = some key) :
    (∃ uri, p.node.outcome = .resolved uri ∧ store.key uri = key) ∨ Unread chain store p key := by
  unfold taken at hkey
  split at hkey
  next uri huri => exact Or.inl ⟨uri, huri, Option.some.inj hkey⟩
  next message hmessage =>
    split at hkey
    next source hfound =>
      refine Or.inr ?_
      obtain ⟨directive, seen, seen', hleaf⟩ | ⟨seen, other, text, -, hresolved, -⟩ := h
      · have hsame := hleaf.directive_eq
        generalize hnode : p.node = node at hleaf hmessage hfound hsame
        cases hleaf with
        | unopened _ herror =>
          rw [hsame, herror] at hfound
          cases hfound
        | unreadable _ hother _ _ hread =>
          obtain rfl := Option.some.inj (Except.ok.inj (hother.symm.trans hfound))
          exact ⟨_, _, by rw [hnode]; exact hother, Option.some.inj hkey, hread, by rw [hnode]⟩
        | _ => cases hmessage
      · rw [hresolved] at hmessage
        cases hmessage
    next => cases hkey
  next => cases hkey

theorem Leaf.taken {depth : Nat} {parent : Text} {directive : Directive} {seen seen' : List Text}
    {node : ImportNode} (h : Leaf chain store options depth parent directive seen node seen') :
    Agrees chain store seen ⟨parent, depth, node⟩ ∧
      seen' = (Follow.taken chain store ⟨parent, depth, node⟩).toList ++ seen := by
  cases h with
  | plainCss | notFound => exact ⟨⟨nofun, nofun⟩, rfl⟩
  | @unopened error _ herror =>
    have hnone : Follow.taken chain store
        ⟨parent, depth,
          ⟨directive, .failed error.message, shown chain options parent directive, []⟩⟩
          = none := by
      simp only [Follow.taken, herror]
    rw [hnone]
    exact ⟨⟨nofun, fun key hkey => by rw [hnone] at hkey; cases hkey⟩, rfl⟩
  | revisited _ _ hseen =>
    exact ⟨⟨fun uri huri => Outcome.revisited.inj huri ▸ hseen, nofun⟩, rfl⟩
  | limited _ _ hfresh =>
    exact ⟨⟨nofun, fun key hkey => Option.some.inj hkey ▸ hfresh⟩, rfl⟩
  | @unreadable source error _ hfound hfresh _ hread =>
    have htaken : Follow.taken chain store
        ⟨parent, depth,
          ⟨directive, .failed error.message, shown chain options parent directive, []⟩⟩
          = some (store.key source.uri) :=
      taken_of_unread ⟨source, error, hfound, rfl, hread, rfl⟩
    rw [htaken]
    exact ⟨⟨nofun, fun key hkey => Option.some.inj (htaken.symm.trans hkey) ▸ hfresh⟩, rfl⟩

/-! ## Placements one after the other -/

/-- Placements one after the other, with what is seen before and after. -/
inductive Walk (chain : Chain) (store : Store) : List Text → List Placement → List Text → Prop
  | nil {seen : List Text} : Walk chain store seen [] seen
  | cons {seen seen' : List Text} {p : Placement} {placements : List Placement}
      (hp : Agrees chain store seen p)
      (hrest : Walk chain store ((taken chain store p).toList ++ seen) placements seen') :
    Walk chain store seen (p :: placements) seen'

section Walks

variable {seen seen' seen'' : List Text} {before after placements : List Placement} {p : Placement}

theorem Walk.append (h : Walk chain store seen before seen')
    (hafter : Walk chain store seen' after seen'') :
    Walk chain store seen (before ++ after) seen'' := by
  induction h with
  | nil => exact hafter
  | cons hp _ ih => exact .cons hp (ih hafter)

/-- A walk up to a placement is a walk, and what it has seen decides about the placement. -/
theorem Walk.split (h : Walk chain store seen (before ++ p :: after) seen'') :
    ∃ seen', Walk chain store seen before seen' ∧ Agrees chain store seen' p := by
  induction before generalizing seen with
  | nil =>
    cases h with
    | cons hp _ => exact ⟨seen, .nil, hp⟩
  | cons q before ih =>
    cases h with
    | cons hq hrest =>
      obtain ⟨seen', hbefore, hp⟩ := ih hrest
      exact ⟨seen', .cons hq hbefore, hp⟩

/-- What has been seen is what the placements took, the last one first. -/
theorem Walk.seen_eq (h : Walk chain store seen placements seen') :
    seen' = (placements.filterMap (taken chain store)).reverse ++ seen := by
  induction h with
  | nil => rfl
  | @cons seen seen' p placements _ _ ih =>
    rw [ih, List.filterMap_cons]
    cases taken chain store p <;> simp

theorem Walk.nodup (h : Walk chain store seen placements seen') (hseen : seen.Nodup) :
    seen'.Nodup := by
  induction h with
  | nil => exact hseen
  | @cons seen seen' p placements hp _ ih =>
    apply ih
    cases htaken : taken chain store p with
    | none => exact hseen
    | some key => exact List.nodup_cons.2 ⟨hp.fresh key htaken, hseen⟩

/-- A key that has been seen was seen at the start or is taken on the way. -/
theorem Walk.mem_seen (h : Walk chain store seen placements seen') {key : Text} :
    key ∈ seen' ↔ key ∈ seen ∨ ∃ q ∈ placements, taken chain store q = some key := by
  rw [h.seen_eq, List.mem_append, List.mem_reverse, List.mem_filterMap, or_comm]

/-- A key that is taken was not seen before, and no two placements take the same. -/
theorem Walk.taken_unique (h : Walk chain store seen placements seen') (hseen : seen.Nodup)
    {q : Placement} (hq : q ∈ placements) {key : Text} (hkey : taken chain store q = some key) :
    key ∉ seen ∧ ∀ other ∈ placements, taken chain store other = some key → other = q := by
  have hnodup := h.nodup hseen
  rw [h.seen_eq, List.nodup_append, List.nodup_reverse] at hnodup
  obtain ⟨htaken, -, happart⟩ := hnodup
  refine ⟨fun hmem => ?_, fun other hother hsame => ?_⟩
  · exact happart key (List.mem_reverse.2 (List.mem_filterMap.2 ⟨q, hq, hkey⟩)) key hmem rfl
  · by_contra hne
    have hpairs := List.pairwise_filterMap.1 htaken
    have hsymm : Std.Symm fun a b : Placement => ∀ k, taken chain store a = some k →
        ∀ k', taken chain store b = some k' → k ≠ k' :=
      ⟨fun a b hab k hk k' hk' heq => hab k' hk' k hk heq.symm⟩
    exact hpairs.forall hother hq hne key hsame key hkey rfl

end Walks

/-- A run goes through its placements in the order in which they are shown. -/
theorem Follows.walk {depth : Nat} {parent : Text} {directives : List Directive}
    {seen seen' : List Text} {nodes : List ImportNode}
    (h : Follows chain store options depth parent directives seen nodes seen') :
    Walk chain store seen (placementsAll parent depth nodes) seen' := by
  induction h with
  | nil => exact .nil
  | leaf hleaf _ ih =>
    obtain ⟨hagrees, rfl⟩ := hleaf.taken
    rw [hleaf.placementsAll_cons]
    exact .cons hagrees ih
  | entered henters _ _ ihbelow ihrest =>
    rw [placementsAll_cons]
    exact .cons ⟨nofun, fun key hkey => Option.some.inj hkey ▸ henters.fresh⟩
      (ihbelow.append ihrest)

end Follow

open Follow

/-- A revisited stylesheet is the entry, or is shown by a node above, unless a node above found it
and could not read it. -/
theorem follow_revisited_shown_iff (chain : Chain) (store : Store) (options : FollowOptions)
    (entry text : Text) {before after : List Placement} {p : Placement} {uri : Text}
    (hplace : (follow chain store options entry text).1.placements = before ++ p :: after)
    (huri : p.node.outcome = .revisited uri) :
    (store.key uri = store.key entry ∨
        ∃ q ∈ before, ∃ shown, q.node.outcome = .resolved shown ∧ store.key shown = store.key uri) ↔
      ¬ ∃ q ∈ before, Unread chain store q (store.key uri) := by
  obtain ⟨seen, hfollows⟩ := follow_follows chain store options entry text
  have haccounted : ∀ q ∈ (follow chain store options entry text).1.placements,
      Accounted chain store options q := hfollows.accounted
  have hwalk : Walk chain store [store.key entry]
      (follow chain store options entry text).1.placements seen := hfollows.walk
  rw [hplace] at hwalk haccounted
  obtain ⟨seen', hbefore, hagrees⟩ := hwalk.split
  constructor
  · rintro hshown ⟨q, hq, hunread⟩
    obtain ⟨hfresh, hunique⟩ :=
      hbefore.taken_unique (List.nodup_singleton _) hq (taken_of_unread hunread)
    rcases hshown with hentry | ⟨other, hother, shown, hresolved, hkey⟩
    · exact hfresh (hentry ▸ List.mem_singleton_self _)
    · obtain rfl := hunique other hother (hkey ▸ taken_of_resolved hresolved)
      obtain ⟨source, error, -, -, -, hfailed⟩ := hunread
      rw [hresolved] at hfailed
      cases hfailed
  · intro hread
    rcases hbefore.mem_seen.1 (hagrees.old uri huri) with hentry | ⟨q, hq, htaken⟩
    · exact Or.inl (List.mem_singleton.1 hentry)
    · rcases (haccounted q (List.mem_append_left _ hq)).taken_cases htaken with hshown | hunread
      · exact Or.inr ⟨q, hq, hshown⟩
      · exact absurd ⟨q, hq, hunread⟩ hread

/-! ## A stylesheet that breaks off -/

/-- A stylesheet that breaks off when it is read, and one that imports it. -/
def breaking : FaultyBundle where
  bundle := { entries := [("/b.scss".toList, Utf8.encode "@import 'a';".toList)] }
  openFaults := []
  readFaults := [("/a.scss".toList, .other "broken".toList)]

/-- The tree of an entry that imports both, and the second one again. -/
def breakingTree : ImportTree :=
  (follow [.faulty breaking] .empty {} "/main.scss".toList "@import 'a', 'b', 'b';".toList).1

theorem outcomes_breakingTree :
    breakingTree.placements.map (·.node.outcome) = [.failed "/a.scss: broken".toList,
      .resolved "/b.scss".toList, .revisited "/a.scss".toList, .revisited "/b.scss".toList] := by
  decide +kernel

/-- The placement at which a list of outcomes is split. -/
theorem exists_placement {placements : List Placement} (first : List Outcome) {outcome : Outcome}
    {last : List Outcome} (h : placements.map (·.node.outcome) = first ++ outcome :: last) :
    ∃ before p after, placements = before ++ p :: after ∧ p.node.outcome = outcome ∧
      before.map (·.node.outcome) = first := by
  obtain ⟨before, rest, rfl, hbefore, hrest⟩ := List.map_eq_append_iff.1 h
  obtain ⟨p, after, rfl, hp, -⟩ := List.map_eq_cons_iff.1 hrest
  exact ⟨before, p, after, rfl, hp, hbefore⟩

theorem follow_revisited_shown_breaking :
    ∃ before p after, breakingTree.placements = before ++ p :: after ∧
      p.node.outcome = .revisited "/b.scss".toList ∧
      ¬ ∃ q ∈ before, Unread [.faulty breaking] .empty q (Store.empty.key "/b.scss".toList) := by
  obtain ⟨before, p, after, hplace, hp, hbefore⟩ :=
    exists_placement [_, _, _] outcomes_breakingTree
  refine ⟨before, p, after, hplace, hp, (follow_revisited_shown_iff _ _ _ _ _ hplace hp).1 ?_⟩
  have hshown : Outcome.resolved "/b.scss".toList ∈ before.map (·.node.outcome) := by
    rw [hbefore]
    exact List.mem_cons_of_mem _ List.mem_cons_self
  obtain ⟨q, hq, hresolved⟩ := List.mem_map.1 hshown
  exact Or.inr ⟨q, hq, _, hresolved, rfl⟩

/-- A stylesheet that could not be read is revisited, although neither the entry nor a node above
has its key. -/
theorem revisited_unread :
    ∃ before p after, breakingTree.placements = before ++ p :: after ∧
      p.node.outcome = .revisited "/a.scss".toList ∧
      Store.empty.key "/a.scss".toList ≠ Store.empty.key "/main.scss".toList ∧
      ∀ q ∈ before, ∀ shown, q.node.outcome = .resolved shown →
        Store.empty.key shown ≠ Store.empty.key "/a.scss".toList := by
  obtain ⟨before, p, after, hplace, hp, hbefore⟩ :=
    exists_placement [_, _] outcomes_breakingTree
  refine ⟨before, p, after, hplace, hp, by decide, fun q hq shown hshown => ?_⟩
  have hmem : Outcome.resolved shown ∈ before.map (·.node.outcome) :=
    hshown ▸ List.mem_map_of_mem hq
  rw [hbefore] at hmem
  obtain rfl : shown = "/b.scss".toList := by simpa using hmem
  decide

end SheetImports
