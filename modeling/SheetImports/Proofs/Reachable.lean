import Mathlib.Data.List.Nodup
import Mathlib.Data.List.Pairwise
import Mathlib.Logic.Relation
import Mathlib.Tactic.ByContra
import SheetImports.Proofs.Seen
import SheetImports.Strategy.Bundle
import SheetImports.Strategy.Filesystem

/-!
# What a run reaches

A stylesheet that is found where it was seen before is shown elsewhere in the tree. So a run without
a limit shows each stylesheet that can be reached from its entry, and each of them once
(`follow_resolved_iff_reachable`).
-/

namespace SheetImports

open Follow ImportNode

variable {chain : Chain} {store : Store} {options : FollowOptions} {entry text : Text}

/-! ## Imports between stylesheets -/

/-- The stylesheet at a uri imports the one at another uri: one of the directives in its text is
looked up and found there. -/
def Imports (chain : Chain) (store : Store) (textOf : Text → Text) (u v : Text) : Prop :=
  ∃ directive ∈ Stylesheet.imports (textOf u), directive.kind = .stylesheet ∧
    ∃ source, found chain store u directive = .ok (some source) ∧ source.uri = v

namespace ImportTree

/-- The texts of the stylesheets that a tree shows: the one of the entry is given, and every other
one is what can be read where the tree first meets the stylesheet. -/
structure Texts (tree : ImportTree) (chain : Chain) (store : Store) (text : Text)
    (textOf : Text → Text) : Prop where
  entry : textOf tree.entry = text
  opened : ∀ p ∈ tree.placements, ∀ source : Source, p.node.outcome = .resolved source.uri →
    found chain store p.parent p.node.directive = .ok (some source) →
      source.readText = .ok (textOf source.uri)

/-- The entry of a tree, and the stylesheets that were opened for it. -/
def Opens (tree : ImportTree) (uri : Text) : Prop :=
  uri = tree.entry ∨ ∃ p ∈ tree.placements, p.node.outcome.uri? = some uri

/-- What is shown was opened. -/
theorem opens_of_resolved {tree : ImportTree} {uri : Text} (h : uri ∈ tree.resolved) :
    tree.Opens uri := by
  obtain ⟨p, hp, huri⟩ := mem_resolved.1 h
  refine Or.inr ⟨p, hp, ?_⟩
  rw [huri]
  rfl

/-- The entry of a tree, and the stylesheets that are shown above the limit. -/
def Expands (tree : ImportTree) (options : FollowOptions) (uri : Text) : Prop :=
  uri = tree.entry ∨
    ∃ p ∈ tree.placements, p.node.outcome = .resolved uri ∧ atLimit options p.depth = false

end ImportTree

/-! ## Nodes -/

theorem follow_map_directive (chain : Chain) (store : Store) (options : FollowOptions)
    (entry text : Text) :
    (follow chain store options entry text).1.imports.map (·.directive)
      = Stylesheet.imports text := by
  obtain ⟨seen, h⟩ := follow_follows chain store options entry text
  exact h.map_directive

theorem follow_accounted (chain : Chain) (store : Store) (options : FollowOptions)
    (entry text : Text) :
    ∀ p ∈ (follow chain store options entry text).1.placements,
      Accounted chain store options p := by
  obtain ⟨seen, h⟩ := follow_follows chain store options entry text
  exact h.accounted

/-! ## Keys -/

/-- The key of a stylesheet that was opened is that of the entry or of one that is shown. -/
theorem follow_key_cases (hreadable : Readable chain store) (options : FollowOptions)
    (entry text : Text) {uri : Text}
    (huri : ∃ p ∈ (follow chain store options entry text).1.placements,
      p.node.outcome.uri? = some uri) :
    store.key uri = store.key entry ∨
      ∃ shown ∈ (follow chain store options entry text).1.resolved,
        store.key shown = store.key uri := by
  obtain ⟨seen, h⟩ := follow_follows chain store options entry text
  obtain ⟨p, hp, huri⟩ := huri
  rcases h.mem_seen_cases hreadable _ (h.key_mem p hp uri huri) with hkey | hkey
  · exact Or.inl (List.mem_singleton.1 hkey)
  · exact Or.inr (List.mem_map.1 hkey)

/-- The stylesheets that are shown differ in their keys. -/
theorem follow_nodup_keys (chain : Chain) (store : Store) (options : FollowOptions)
    (entry text : Text) :
    ((follow chain store options entry text).1.resolved.map store.key).Nodup := by
  obtain ⟨seen, h⟩ := follow_follows chain store options entry text
  exact h.nodup.1

theorem follow_nodup (chain : Chain) (store : Store) (options : FollowOptions)
    (entry text : Text) : (follow chain store options entry text).1.resolved.Nodup :=
  List.Nodup.of_map store.key (follow_nodup_keys chain store options entry text)

theorem ne_entry_of_resolved {uri : Text}
    (h : uri ∈ (follow chain store options entry text).1.resolved) : uri ≠ entry := by
  obtain ⟨seen, hfollows⟩ := follow_follows chain store options entry text
  rintro rfl
  exact hfollows.nodup.2 uri h List.mem_cons_self

/-- What was opened is shown, if the keys tell the opened stylesheets apart. -/
theorem resolved_of_opened (hreadable : Readable chain store)
    (hkeys : ∀ u v, (follow chain store options entry text).1.Opens u →
      (follow chain store options entry text).1.Opens v → store.key u = store.key v → u = v)
    {uri : Text} (huri : (follow chain store options entry text).1.Opens uri) :
    uri = entry ∨ uri ∈ (follow chain store options entry text).1.resolved := by
  rcases huri with huri | huri
  · exact Or.inl huri
  rcases follow_key_cases hreadable options entry text huri with hkey | ⟨shown, hshown, hkey⟩
  · exact Or.inl (hkeys uri entry (Or.inr huri) (Or.inl rfl) hkey)
  · rw [← hkeys shown uri (ImportTree.opens_of_resolved hshown) (Or.inr huri) hkey]
    exact Or.inr hshown

/-! ## Texts -/

theorem eq_of_resolved {p q : Placement}
    (hp : p ∈ (follow chain store options entry text).1.placements)
    (hq : q ∈ (follow chain store options entry text).1.placements) {uri : Text}
    (hpuri : p.node.outcome = .resolved uri) (hquri : q.node.outcome = .resolved uri) : p = q := by
  have hnodup := follow_nodup chain store options entry text
  rw [ImportTree.resolved, List.Nodup, List.pairwise_filterMap] at hnodup
  by_contra hne
  have hsymm : Std.Symm fun p q : Placement => ∀ u, p.node.outcome.resolved? = some u →
      ∀ v, q.node.outcome.resolved? = some v → u ≠ v :=
    ⟨fun p q h u hu v hv => (h v hv u hu).symm⟩
  exact hnodup.forall hp hq hne uri (Outcome.resolved?_eq_some.2 hpuri) uri
    (Outcome.resolved?_eq_some.2 hquri) rfl

/-- If everything that is opened can be read, each stylesheet that is shown has the text that was
read when it was. -/
theorem exists_texts (hreadable : Readable chain store) (options : FollowOptions)
    (entry text : Text) :
    ∃ textOf, (follow chain store options entry text).1.Texts chain store text textOf := by
  classical
  let tree := (follow chain store options entry text).1
  let IsText (uri content : Text) : Prop :=
    ∃ p ∈ tree.placements, ∃ source : Source, p.node.outcome = .resolved uri ∧ source.uri = uri ∧
      found chain store p.parent p.node.directive = .ok (some source) ∧
      source.readText = .ok content
  refine ⟨fun uri => if uri = entry then text else
    if h : ∃ content, IsText uri content then h.choose else [], if_pos rfl, ?_⟩
  intro p hp source huri hfound
  have hne : source.uri ≠ entry := ne_entry_of_resolved (ImportTree.mem_resolved.2 ⟨p, hp, huri⟩)
  obtain ⟨content, hcontent⟩ := hreadable hfound
  have hexists : ∃ content, IsText source.uri content :=
    ⟨content, p, hp, source, huri, rfl, hfound, hcontent⟩
  obtain ⟨q, hq, other, hquri, -, hother, hread⟩ := hexists.choose_spec
  obtain rfl := eq_of_resolved hp hq huri hquri
  obtain rfl : source = other := Option.some.inj (Except.ok.inj (hfound.symm.trans hother))
  rw [if_neg hne, dif_pos hexists]
  exact hread

/-- A strategy that looks on disk or in a bundle. -/
def Strategy.IsStored (strategy : Strategy) : Prop :=
  (∃ roots, strategy = .filesystem roots) ∨ ∃ bundle, strategy = .bundle bundle

theorem Strategy.IsStored.exists_bytes {strategy : Strategy} (h : strategy.IsStored) {uri : Text}
    {stream : Stream} (hopen : strategy.openUri store uri = .ok (some stream)) :
    ∃ bytes, stream = .ofBytes bytes := by
  obtain ⟨roots, rfl⟩ | ⟨bundle, rfl⟩ := h
  · change Strategy.openFile store uri = _ at hopen
    unfold Strategy.openFile at hopen
    split at hopen
    · next bytes hlook => exact ⟨bytes, (Option.some.inj (Except.ok.inj hopen)).symm⟩
    · cases hopen
    · split at hopen <;> cases hopen
  · obtain ⟨bytes, -, rfl⟩ := Option.map_eq_some_iff.1 (Except.ok.inj hopen)
    exact ⟨bytes, rfl⟩

/-- What is found on disk or in a bundle can be read. -/
theorem readable_of_isStored (hchain : ∀ strategy ∈ chain, strategy.IsStored) :
    Readable chain store := by
  intro parent directive source hfound
  obtain ⟨strategy, hstrategy, hopen⟩ := Chain.exists_openUri_of_resolve hfound
  obtain ⟨bytes, hbytes⟩ := (hchain strategy hstrategy).exists_bytes hopen
  refine ⟨Utf8.decode bytes, ?_⟩
  rw [Source.readText, hbytes, Stream.drain_ofBytes]

/-! ## Reaching -/

/-- Above the limit, a stylesheet is shown with all of its directives. -/
theorem map_directive_of_resolved {textOf : Text → Text}
    (htexts : (follow chain store options entry text).1.Texts chain store text textOf)
    {p : Placement} (hp : p ∈ (follow chain store options entry text).1.placements) {uri : Text}
    (huri : p.node.outcome = .resolved uri) (hdeeper : atLimit options p.depth = false) :
    p.node.children.map (·.directive) = Stylesheet.imports (textOf uri) := by
  obtain ⟨source, content, hfound, rfl, hread, hchildren⟩ :=
    (follow_accounted chain store options entry text p hp).map_directive huri hdeeper
  have hcontent := hread.symm.trans (htexts.opened p hp source huri hfound)
  rw [hchildren, Except.ok.inj hcontent]

/-- The directive of a node is one of the stylesheet that the node stands under. -/
theorem directive_mem_of_placed {textOf : Text → Text}
    (htexts : (follow chain store options entry text).1.Texts chain store text textOf) :
    ∀ p ∈ (follow chain store options entry text).1.placements,
      p.node.directive ∈ Stylesheet.imports (textOf p.parent) := by
  refine ImportTree.forall_placements ?_ ?_
  · intro node hnode
    rw [htexts.entry, ← follow_map_directive chain store options entry text]
    exact List.mem_map_of_mem hnode
  · intro q hq _ child hchild
    obtain ⟨uri, huri, hdeeper⟩ :=
      (follow_accounted chain store options entry text q hq).of_child hchild
    have hplace : q.node.place = uri := by rw [place, huri]; rfl
    dsimp only
    rw [hplace, ← map_directive_of_resolved htexts hq huri hdeeper]
    exact List.mem_map_of_mem hchild

theorem imports_of_placed {textOf : Text → Text}
    (htexts : (follow chain store options entry text).1.Texts chain store text textOf)
    {p : Placement} (hp : p ∈ (follow chain store options entry text).1.placements) {uri : Text}
    (huri : p.node.outcome.uri? = some uri) : Imports chain store textOf p.parent uri := by
  obtain ⟨hkind, hsource⟩ :=
    (follow_accounted chain store options entry text p hp).found_of_uri? huri
  exact ⟨_, directive_mem_of_placed htexts p hp, hkind, hsource⟩

theorem imports_place_of_child {textOf : Text → Text}
    (htexts : (follow chain store options entry text).1.Texts chain store text textOf)
    {p : Placement} (hp : p ∈ (follow chain store options entry text).1.placements)
    {child : ImportNode} (hchild : child ∈ p.node.children) :
    atLimit options p.depth = false ∧ Imports chain store textOf p.parent p.node.place := by
  obtain ⟨uri, huri, hdeeper⟩ :=
    (follow_accounted chain store options entry text p hp).of_child hchild
  have hnamed : p.node.outcome.uri? = some uri := by rw [huri]; rfl
  have hplace : p.node.place = uri := by rw [place, hnamed]; rfl
  rw [hplace]
  exact ⟨hdeeper, imports_of_placed htexts hp hnamed⟩

/-- From the entry down, each node is imported by the stylesheet above it. -/
theorem reachable_of_opened {textOf : Text → Text}
    (htexts : (follow chain store options entry text).1.Texts chain store text textOf) {uri : Text}
    (h : (follow chain store options entry text).1.Opens uri) :
    Relation.ReflTransGen (Imports chain store textOf) entry uri := by
  have hparent : ∀ p ∈ (follow chain store options entry text).1.placements,
      Relation.ReflTransGen (Imports chain store textOf) entry p.parent := by
    refine ImportTree.forall_placements (fun _ _ => .refl) fun q hq hreach child hchild => ?_
    exact hreach.tail (imports_place_of_child htexts hq hchild).2
  rcases h with rfl | ⟨p, hp, huri⟩
  · exact .refl
  · exact (hparent p hp).tail (imports_of_placed htexts hp huri)

/-- Each directive of a stylesheet whose imports are followed has a node that stands under it. -/
theorem exists_placed {textOf : Text → Text}
    (htexts : (follow chain store options entry text).1.Texts chain store text textOf) {uri : Text}
    (huri : (follow chain store options entry text).1.Expands options uri) {directive : Directive}
    (hdirective : directive ∈ Stylesheet.imports (textOf uri)) :
    ∃ p ∈ (follow chain store options entry text).1.placements,
      p.parent = uri ∧ p.node.directive = directive := by
  rcases huri with huri | ⟨p, hp, huri, hdeeper⟩
  · rw [huri, htexts.entry, ← follow_map_directive chain store options entry text] at hdirective
    obtain ⟨node, hnode, rfl⟩ := List.mem_map.1 hdirective
    exact ⟨_, mem_placementsAll hnode, huri.symm, rfl⟩
  · rw [← map_directive_of_resolved htexts hp huri hdeeper] at hdirective
    obtain ⟨child, hchild, rfl⟩ := List.mem_map.1 hdirective
    have hplace : p.node.place = uri := by rw [place, huri]; rfl
    exact ⟨_, mem_placementsAll_of_child hp hchild, hplace, rfl⟩

/-- What is imported by a stylesheet whose imports are followed is shown. -/
theorem resolved_of_imports (hreadable : Readable chain store)
    (hkeys : ∀ u v, (follow chain store options entry text).1.Opens u →
      (follow chain store options entry text).1.Opens v → store.key u = store.key v → u = v)
    {textOf : Text → Text}
    (htexts : (follow chain store options entry text).1.Texts chain store text textOf) {u v : Text}
    (hu : (follow chain store options entry text).1.Expands options u)
    (h : Imports chain store textOf u v) :
    v = entry ∨ v ∈ (follow chain store options entry text).1.resolved := by
  obtain ⟨directive, hdirective, hkind, source, hfound, rfl⟩ := h
  obtain ⟨p, hp, rfl, rfl⟩ := exists_placed htexts hu hdirective
  have huri := (follow_accounted chain store options entry text p hp).uri?_of_found hreadable hkind
    hfound
  exact resolved_of_opened hreadable hkeys (Or.inr ⟨p, hp, huri⟩)

/-- Without a limit, and if keys tell the opened stylesheets apart, the tree of an entry shows the
stylesheets that can be reached from it, each of them at one node, and under each node there is one
node for each directive of its text. The texts are those that are read on the way. -/
theorem follow_resolved_iff_reachable (hchain : ∀ strategy ∈ chain, strategy.IsStored)
    (store : Store) (options : FollowOptions) (hlimit : options.maxDepth = none)
    (entry text : Text)
    (hkeys : ∀ u v, (follow chain store options entry text).1.Opens u →
      (follow chain store options entry text).1.Opens v → store.key u = store.key v → u = v) :
    (∃ textOf, (follow chain store options entry text).1.Texts chain store text textOf) ∧
      ∀ textOf, (follow chain store options entry text).1.Texts chain store text textOf →
        (∀ uri, uri ∈ (follow chain store options entry text).1.resolved
          ↔ uri ≠ entry ∧ Relation.ReflTransGen (Imports chain store textOf) entry uri) ∧
        (follow chain store options entry text).1.resolved.Nodup ∧
        (follow chain store options entry text).1.imports.map (·.directive)
          = Stylesheet.imports text ∧
        ∀ p ∈ (follow chain store options entry text).1.placements, ∀ uri,
          p.node.outcome = .resolved uri →
            p.node.children.map (·.directive) = Stylesheet.imports (textOf uri) := by
  have hreadable : Readable chain store := readable_of_isStored hchain
  have hdeeper : ∀ depth, atLimit options depth = false := by
    intro depth
    rw [atLimit, hlimit]
    rfl
  refine ⟨exists_texts hreadable options entry text, fun textOf htexts => ?_⟩
  -- what is reached is the entry or is shown, by induction on the way to it
  have hshown : ∀ uri, Relation.ReflTransGen (Imports chain store textOf) entry uri →
      uri = entry ∨ uri ∈ (follow chain store options entry text).1.resolved := by
    intro uri hreach
    induction hreach with
    | refl => exact Or.inl rfl
    | @tail u v _ himports ih =>
      refine resolved_of_imports hreadable hkeys htexts ?_ himports
      rcases ih with hu | hu
      · exact Or.inl hu
      · obtain ⟨p, hp, huri⟩ := ImportTree.mem_resolved.1 hu
        exact Or.inr ⟨p, hp, huri, hdeeper _⟩
  refine ⟨fun uri => ⟨fun h => ?_, fun ⟨hne, hreach⟩ => ?_⟩,
    follow_nodup chain store options entry text,
    follow_map_directive chain store options entry text, ?_⟩
  · exact ⟨ne_entry_of_resolved h, reachable_of_opened htexts (ImportTree.opens_of_resolved h)⟩
  · exact (hshown uri hreach).resolve_left hne
  · intro p hp uri huri
    exact map_directive_of_resolved htexts hp huri (hdeeper _)

/-- Two stylesheets that import each other, and one of them the entry. -/
def ring : Bundle where
  entries := [("/a.scss".toList, Utf8.encode "@import 'b', 'main';".toList),
    ("/b.scss".toList, Utf8.encode "@import 'a';".toList),
    ("/main.scss".toList, Utf8.encode "@import 'a', 'b';".toList)]

theorem follow_ring :
    ∃ textOf, (follow [.bundle ring] .empty {} "/main.scss".toList
        "@import 'a', 'b';".toList).1.Texts [.bundle ring] .empty
          "@import 'a', 'b';".toList textOf ∧
      ∀ uri, uri ∈ ["/a.scss".toList, "/b.scss".toList] ↔ uri ≠ "/main.scss".toList ∧
        Relation.ReflTransGen (Imports [.bundle ring] .empty textOf) "/main.scss".toList uri := by
  have hchain : ∀ strategy ∈ [Strategy.bundle ring], strategy.IsStored := by
    intro strategy hstrategy
    exact Or.inr ⟨ring, List.mem_singleton.1 hstrategy⟩
  have hresolved : (follow [.bundle ring] .empty {} "/main.scss".toList
      "@import 'a', 'b';".toList).1.resolved = ["/a.scss".toList, "/b.scss".toList] := by
    decide +kernel
  obtain ⟨⟨textOf, htexts⟩, hreach⟩ := follow_resolved_iff_reachable hchain .empty {} rfl
    "/main.scss".toList "@import 'a', 'b';".toList fun u v _ _ hkey => hkey
  refine ⟨textOf, htexts, ?_⟩
  rw [← hresolved]
  exact (hreach textOf htexts).1

end SheetImports
