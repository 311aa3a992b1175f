import SheetImports.Proofs.Placement
import SheetImports.Proofs.Run

/-!
# Nodes and keys of a run

Every node of a run says what became of its directive (`Follows.accounted`). What has been seen are
the keys of the stylesheets that the nodes show (`Follows.mem_seen_cases`), and no key is shown
twice (`Follows.nodup`).
-/

namespace SheetImports.Follow

open ImportNode

variable {chain : Chain} {store : Store} {options : FollowOptions}

/-! ## The nodes of a run -/

/-- A placement in a run is that of a leaf or of a directive that was entered. -/
def Accounted (chain : Chain) (store : Store) (options : FollowOptions) (p : Placement) : Prop :=
  (∃ directive seen seen',
    Leaf chain store options p.depth p.parent directive seen p.node seen') ∨
  ∃ seen source text,
    Enters chain store options p.depth p.parent p.node.directive seen source text ∧
    p.node.outcome = .resolved source.uri ∧
    p.node.children.map (·.directive) = Stylesheet.imports text

theorem Leaf.directive_eq {depth : Nat} {parent : Text} {directive : Directive}
    {seen seen' : List Text} {node : ImportNode}
    (h : Leaf chain store options depth parent directive seen node seen') :
    node.directive = directive := by
  cases h <;> rfl

theorem Leaf.children_eq {depth : Nat} {parent : Text} {directive : Directive}
    {seen seen' : List Text} {node : ImportNode}
    (h : Leaf chain store options depth parent directive seen node seen') : node.children = [] := by
  cases h <;> rfl

theorem Leaf.placementsAll_cons {depth : Nat} {parent : Text} {directive : Directive}
    {seen seen' : List Text} {node : ImportNode}
    (h : Leaf chain store options depth parent directive seen node seen')
    (nodes : List ImportNode) :
    placementsAll parent depth (node :: nodes)
      = ⟨parent, depth, node⟩ :: placementsAll parent depth nodes := by
  rw [ImportNode.placementsAll_cons, h.children_eq, placementsAll, List.nil_append]

theorem Follows.map_directive {depth : Nat} {parent : Text} {directives : List Directive}
    {seen seen' : List Text} {nodes : List ImportNode}
    (h : Follows chain store options depth parent directives seen nodes seen') :
    nodes.map (·.directive) = directives := by
  induction h with
  | nil => rfl
  | leaf hleaf _ ih => rw [List.map_cons, ih, hleaf.directive_eq]
  | entered _ _ _ _ ih => rw [List.map_cons, ih]

/-- What holds of every leaf, and of every directive that is entered, holds of all placements. -/
theorem Follows.forall_placements {motive : Placement → Prop}
    (leaf : ∀ {depth : Nat} {parent : Text} {directive : Directive} {seen seen' : List Text}
      {node : ImportNode}, Leaf chain store options depth parent directive seen node seen' →
        motive ⟨parent, depth, node⟩)
    (entered : ∀ {depth : Nat} {parent : Text} {directive : Directive} {seen seen' : List Text}
      {source : Source} {text : Text} {children : List ImportNode},
      Enters chain store options depth parent directive seen source text →
        Follows chain store options (depth + 1) source.uri (Stylesheet.imports text)
          (store.key source.uri :: seen) children seen' →
        motive ⟨parent, depth, ⟨directive, .resolved source.uri,
          shown chain options parent directive, children⟩⟩)
    {depth : Nat} {parent : Text} {directives : List Directive} {seen seen' : List Text}
    {nodes : List ImportNode}
    (h : Follows chain store options depth parent directives seen nodes seen') :
    ∀ p ∈ placementsAll parent depth nodes, motive p := by
  induction h with
  | nil =>
    intro p hp
    rw [placementsAll] at hp
    cases hp
  | leaf hleaf _ ih =>
    intro p hp
    rw [hleaf.placementsAll_cons] at hp
    rcases List.mem_cons.1 hp with rfl | hp
    · exact leaf hleaf
    · exact ih p hp
  | entered henters hbelow _ ihbelow ihrest =>
    intro p hp
    rw [placementsAll_cons] at hp
    rcases List.mem_cons.1 hp with rfl | hp
    · exact entered henters hbelow
    · rcases List.mem_append.1 hp with hp | hp
      · exact ihbelow p hp
      · exact ihrest p hp

/-- Every node of a run is a leaf, or a stylesheet with its own directives below it. -/
theorem Follows.accounted {depth : Nat} {parent : Text} {directives : List Directive}
    {seen seen' : List Text} {nodes : List ImportNode}
    (h : Follows chain store options depth parent directives seen nodes seen') :
    ∀ p ∈ placementsAll parent depth nodes, Accounted chain store options p := by
  refine h.forall_placements (fun hleaf => ?_) fun henters hbelow => ?_
  · exact Or.inl ⟨_, _, _, hleaf⟩
  · exact Or.inr ⟨_, _, _, henters, rfl, hbelow.map_directive⟩

/-! ## What a node says -/

/-- The chain finds nothing that cannot be read. -/
def Readable (chain : Chain) (store : Store) : Prop :=
  ∀ {parent : Text} {directive : Directive} {source : Source},
    found chain store parent directive = .ok (some source) → ∃ text, source.readText = .ok text

theorem Leaf.found_of_uri? {depth : Nat} {parent : Text} {directive : Directive}
    {seen seen' : List Text} {node : ImportNode}
    (h : Leaf chain store options depth parent directive seen node seen') {uri : Text}
    (huri : node.outcome.uri? = some uri) :
    node.directive.kind = .stylesheet ∧
      ∃ source, found chain store parent node.directive = .ok (some source) ∧
        source.uri = uri := by
  cases h with
  | revisited hkind hfound _ => exact ⟨hkind, _, hfound, Option.some.inj huri⟩
  | limited hkind hfound _ _ => exact ⟨hkind, _, hfound, Option.some.inj huri⟩
  | _ => cases huri

theorem Leaf.atLimit_of_resolved {depth : Nat} {parent : Text} {directive : Directive}
    {seen seen' : List Text} {node : ImportNode}
    (h : Leaf chain store options depth parent directive seen node seen') {uri : Text}
    (huri : node.outcome = .resolved uri) : atLimit options depth = true := by
  cases h with
  | limited _ _ _ hlimit => exact hlimit
  | _ => cases huri

/-- Where streams can be read, what was found is shown, as resolved or revisited. -/
theorem Leaf.uri?_of_found (hreadable : Readable chain store) {depth : Nat} {parent : Text}
    {directive : Directive} {seen seen' : List Text} {node : ImportNode}
    (h : Leaf chain store options depth parent directive seen node seen')
    (hkind : node.directive.kind = .stylesheet) {source : Source}
    (hfound : found chain store parent node.directive = .ok (some source)) :
    node.outcome.uri? = some source.uri := by
  have hsame : ∀ {other : Source},
      found chain store parent node.directive = .ok (some other) → other = source := by
    intro other hother
    exact Option.some.inj (Except.ok.inj (hother.symm.trans hfound))
  cases h with
  | plainCss hcss => rw [hkind] at hcss; cases hcss
  | notFound _ hnone => rw [hnone] at hfound; cases hfound
  | unopened _ herror => rw [herror] at hfound; cases hfound
  | revisited _ hother => rw [← hsame hother]; rfl
  | limited _ hother => rw [← hsame hother]; rfl
  | unreadable _ hother _ _ hread =>
    obtain ⟨text, htext⟩ := hreadable hother
    rw [hread] at htext
    cases htext

theorem Accounted.found_of_uri? {p : Placement} (h : Accounted chain store options p)
    {uri : Text} (huri : p.node.outcome.uri? = some uri) :
    p.node.directive.kind = .stylesheet ∧
      ∃ source, found chain store p.parent p.node.directive = .ok (some source) ∧
        source.uri = uri := by
  obtain ⟨directive, seen, seen', hleaf⟩ | ⟨seen, source, text, henters, hresolved, -⟩ := h
  · exact hleaf.found_of_uri? huri
  · rw [hresolved] at huri
    exact ⟨henters.kind, source, henters.found, Option.some.inj huri⟩

theorem Accounted.uri?_of_found (hreadable : Readable chain store) {p : Placement}
    (h : Accounted chain store options p) (hkind : p.node.directive.kind = .stylesheet)
    {source : Source} (hfound : found chain store p.parent p.node.directive = .ok (some source)) :
    p.node.outcome.uri? = some source.uri := by
  obtain ⟨directive, seen, seen', hleaf⟩ | ⟨seen, other, text, henters, hresolved, -⟩ := h
  · exact hleaf.uri?_of_found hreadable hkind hfound
  · rw [henters.found] at hfound
    obtain rfl := Option.some.inj (Except.ok.inj hfound)
    rw [hresolved]
    rfl

/-- The nodes below a stylesheet above the limit are those of the directives in its text. -/
theorem Accounted.map_directive {p : Placement} (h : Accounted chain store options p)
    {uri : Text} (huri : p.node.outcome = .resolved uri)
    (hdeeper : atLimit options p.depth = false) :
    ∃ source text, found chain store p.parent p.node.directive = .ok (some source) ∧
      source.uri = uri ∧ source.readText = .ok text ∧
      p.node.children.map (·.directive) = Stylesheet.imports text := by
  obtain ⟨directive, seen, seen', hleaf⟩ | ⟨seen, source, text, henters, hresolved, hchildren⟩ := h
  · rw [hleaf.atLimit_of_resolved huri] at hdeeper
    cases hdeeper
  · rw [hresolved] at huri
    exact ⟨source, text, henters.found, Outcome.resolved.inj huri, henters.read, hchildren⟩

theorem Accounted.of_child {p : Placement} (h : Accounted chain store options p)
    {child : ImportNode} (hchild : child ∈ p.node.children) :
    ∃ uri, p.node.outcome = .resolved uri ∧ atLimit options p.depth = false := by
  obtain ⟨directive, seen, seen', hleaf⟩ | ⟨seen, source, text, henters, hresolved, -⟩ := h
  · rw [hleaf.children_eq] at hchild
    cases hchild
  · exact ⟨source.uri, hresolved, henters.deeper⟩

/-! ## What has been seen -/

/-- The uris of the stylesheets that are shown for the first time. -/
def shownUris (parent : Text) (depth : Nat) (nodes : List ImportNode) : List Text :=
  (placementsAll parent depth nodes).filterMap (·.node.outcome.resolved?)

theorem shownUris_nil (parent : Text) (depth : Nat) : shownUris parent depth [] = [] := by
  rw [shownUris, placementsAll, List.filterMap_nil]

theorem shownUris_cons (parent : Text) (depth : Nat) (node : ImportNode)
    (nodes : List ImportNode) :
    shownUris parent depth (node :: nodes)
      = node.outcome.resolved?.toList
        ++ (shownUris node.place (depth + 1) node.children ++ shownUris parent depth nodes) := by
  rw [shownUris, placementsAll_cons, List.filterMap_cons, List.filterMap_append]
  cases node.outcome.resolved? <;> rfl

theorem shownUris_leaf {depth : Nat} {parent : Text} {node : ImportNode}
    (h : node.children = []) (nodes : List ImportNode) :
    shownUris parent depth (node :: nodes)
      = node.outcome.resolved?.toList ++ shownUris parent depth nodes := by
  rw [shownUris_cons, h, shownUris_nil, List.nil_append]

theorem shownUris_resolved (parent : Text) (depth : Nat) (directive : Directive) (uri : Text)
    (candidates : List Text) (children nodes : List ImportNode) :
    shownUris parent depth (⟨directive, .resolved uri, candidates, children⟩ :: nodes)
      = uri :: (shownUris uri (depth + 1) children ++ shownUris parent depth nodes) :=
  shownUris_cons _ _ _ _

/-- A leaf takes the key of the stylesheet that it shows, and takes none if it shows none. -/
theorem Leaf.seen_eq (hreadable : Readable chain store) {depth : Nat} {parent : Text}
    {directive : Directive} {seen seen' : List Text} {node : ImportNode}
    (h : Leaf chain store options depth parent directive seen node seen') :
    seen' = node.outcome.resolved?.toList.map store.key ++ seen := by
  cases h with
  | unreadable _ hfound _ _ hread =>
    obtain ⟨text, htext⟩ := hreadable hfound
    rw [hread] at htext
    cases htext
  | _ => rfl

/-- A key that has been seen was seen before the run or is shown in it. -/
theorem Follows.mem_seen_cases (hreadable : Readable chain store) {depth : Nat} {parent : Text}
    {directives : List Directive} {seen seen' : List Text} {nodes : List ImportNode}
    (h : Follows chain store options depth parent directives seen nodes seen') :
    ∀ key ∈ seen', key ∈ seen ∨ key ∈ (shownUris parent depth nodes).map store.key := by
  induction h with
  | nil => exact fun key hkey => Or.inl hkey
  | leaf hleaf _ ih =>
    intro key hkey
    rw [shownUris_leaf hleaf.children_eq, List.map_append]
    rcases ih key hkey with hkey | hkey
    · rw [hleaf.seen_eq hreadable] at hkey
      rcases List.mem_append.1 hkey with hkey | hkey
      · exact Or.inr (List.mem_append_left _ hkey)
      · exact Or.inl hkey
    · exact Or.inr (List.mem_append_right _ hkey)
  | entered henters _ _ ihbelow ihrest =>
    intro key hkey
    rw [shownUris_resolved, List.map_cons, List.map_append]
    rcases ihrest key hkey with hkey | hkey
    · rcases ihbelow key hkey with hkey | hkey
      · rcases List.mem_cons.1 hkey with rfl | hkey
        · exact Or.inr List.mem_cons_self
        · exact Or.inl hkey
      · exact Or.inr (List.mem_cons_of_mem _ (List.mem_append_left _ hkey))
    · exact Or.inr (List.mem_cons_of_mem _ (List.mem_append_right _ hkey))

theorem Leaf.key_mem {depth : Nat} {parent : Text} {directive : Directive}
    {seen seen' : List Text} {node : ImportNode}
    (h : Leaf chain store options depth parent directive seen node seen') {uri : Text}
    (huri : node.outcome.uri? = some uri) : store.key uri ∈ seen' := by
  cases h with
  | revisited _ _ hseen =>
    obtain rfl := Option.some.inj huri
    exact hseen
  | limited =>
    obtain rfl := Option.some.inj huri
    exact List.mem_cons_self
  | _ => cases huri

/-- The key of any stylesheet that a node speaks of has been seen in the end. -/
theorem Follows.key_mem {depth : Nat} {parent : Text} {directives : List Directive}
    {seen seen' : List Text} {nodes : List ImportNode}
    (h : Follows chain store options depth parent directives seen nodes seen') :
    ∀ p ∈ placementsAll parent depth nodes, ∀ uri, p.node.outcome.uri? = some uri →
      store.key uri ∈ seen' := by
  induction h with
  | nil =>
    intro p hp
    rw [placementsAll] at hp
    cases hp
  | leaf hleaf hrest ih =>
    intro p hp uri huri
    rw [hleaf.placementsAll_cons] at hp
    rcases List.mem_cons.1 hp with rfl | hp
    · exact hrest.subset (hleaf.key_mem huri)
    · exact ih p hp uri huri
  | entered henters hbelow hrest ihbelow ihrest =>
    intro p hp uri huri
    rw [placementsAll_cons] at hp
    rcases List.mem_cons.1 hp with rfl | hp
    · obtain rfl := Option.some.inj huri
      exact hrest.subset (hbelow.subset List.mem_cons_self)
    · rcases List.mem_append.1 hp with hp | hp
      · exact hrest.subset (ihbelow p hp uri huri)
      · exact ihrest p hp uri huri

theorem Follows.key_mem_of_shown {depth : Nat} {parent : Text} {directives : List Directive}
    {seen seen' : List Text} {nodes : List ImportNode}
    (h : Follows chain store options depth parent directives seen nodes seen') {uri : Text}
    (huri : uri ∈ shownUris parent depth nodes) : store.key uri ∈ seen' := by
  obtain ⟨p, hp, hshown⟩ := List.mem_filterMap.1 huri
  refine h.key_mem p hp uri ?_
  rw [Outcome.resolved?_eq_some.1 hshown]
  rfl

/-- No key is shown that was seen before, and none is shown twice. -/
theorem Follows.nodup {depth : Nat} {parent : Text} {directives : List Directive}
    {seen seen' : List Text} {nodes : List ImportNode}
    (h : Follows chain store options depth parent directives seen nodes seen') :
    ((shownUris parent depth nodes).map store.key).Nodup ∧
      ∀ uri ∈ shownUris parent depth nodes, store.key uri ∉ seen := by
  induction h with
  | nil =>
    rw [shownUris_nil]
    exact ⟨List.nodup_nil, fun uri huri => by cases huri⟩
  | @leaf depth parent directive directives seen seen' seen'' node nodes hleaf hrest ih =>
    obtain ⟨hnodup, hfresh⟩ := ih
    have hold : ∀ uri ∈ shownUris parent depth nodes, store.key uri ∉ seen := fun uri huri hmem =>
      hfresh uri huri (hleaf.subset hmem)
    rw [shownUris_leaf hleaf.children_eq]
    cases hleaf with
    | limited _ _ hnew _ =>
      refine ⟨List.nodup_cons.2 ⟨fun hmem => ?_, hnodup⟩, fun uri huri => ?_⟩
      · obtain ⟨uri, huri, hkey⟩ := List.mem_map.1 hmem
        exact hfresh uri huri (hkey ▸ List.mem_cons_self)
      · rcases List.mem_cons.1 huri with rfl | huri
        · exact hnew
        · exact hold uri huri
    | _ => exact ⟨hnodup, hold⟩
  | @entered depth parent directive directives seen seen' seen'' children nodes source text henters
      hbelow hrest ihbelow ihrest =>
    obtain ⟨hnodup, hfresh⟩ := ihbelow
    obtain ⟨hnodup', hfresh'⟩ := ihrest
    -- what is shown below is seen by the directives that come after, so the two share no key
    have hsubset : store.key source.uri :: seen ⊆ seen' := hbelow.subset
    have hkey : store.key source.uri ∉ (shownUris source.uri (depth + 1) children).map store.key
        ++ (shownUris parent depth nodes).map store.key := by
      rw [← List.map_append, List.mem_map]
      rintro ⟨uri, huri, hkey⟩
      rcases List.mem_append.1 huri with huri | huri
      · exact hfresh uri huri (hkey ▸ List.mem_cons_self)
      · exact hfresh' uri huri (hkey ▸ hsubset List.mem_cons_self)
    have happart : ∀ key ∈ (shownUris source.uri (depth + 1) children).map store.key,
        ∀ key' ∈ (shownUris parent depth nodes).map store.key, key ≠ key' := by
      rintro key hmem key' hmem' rfl
      obtain ⟨uri, huri, rfl⟩ := List.mem_map.1 hmem
      obtain ⟨uri', huri', hkey⟩ := List.mem_map.1 hmem'
      exact hfresh' uri' huri' (hkey ▸ hbelow.key_mem_of_shown huri)
    rw [shownUris_resolved]
    refine ⟨?_, fun uri huri => ?_⟩
    · rw [List.map_cons, List.map_append]
      exact List.nodup_cons.2 ⟨hkey, List.nodup_append.2 ⟨hnodup, hnodup', happart⟩⟩
    · rcases List.mem_cons.1 huri with rfl | huri
      · exact henters.fresh
      rcases List.mem_append.1 huri with huri | huri
      · exact fun hmem => hfresh uri huri (List.mem_cons_of_mem _ hmem)
      · exact fun hmem => hfresh' uri huri (hsubset (List.mem_cons_of_mem _ hmem))

end SheetImports.Follow
