import Mathlib.Data.Finset.Card
import SheetImports.Proofs.Lookup
import SheetImports.Proofs.Reachable
import SheetImports.Proofs.TwoRuns

/-!
# Nothing twice, and an end

A stylesheet is read only if its key was not seen before, and then it has been seen. So no two
stylesheets that a tree shows have one key (`follow_shows_once`). Where a chain opens stylesheets of
finitely many keys, a run reads no more of them than there are keys, and ends there, whatever links
lead in a circle: once there are more levels than keys, the levels make no difference
(`follow_ends`).

The strategies of a chain hold finitely many stylesheets each. For what has finitely many keys that
is no restriction (`exists_chain`).
-/

namespace SheetImports

open Follow ImportNode

variable {chain : Chain} {store : Store} {options : FollowOptions}

/-! ## Nothing twice -/

/-- Places that have different keys are different. -/
theorem countP_canonical_le_one {uris : List Text} (h : (uris.map store.key).Nodup) (place : Text) :
    uris.countP (fun uri => (store.canonical uri).toOption = some place) ≤ 1 := by
  have hkey : ∀ uri, (store.canonical uri).toOption = some place → store.key uri = place := by
    intro uri hplace
    rw [Store.key, hplace]
    rfl
  calc uris.countP (fun uri => (store.canonical uri).toOption = some place)
      ≤ uris.countP (fun uri => store.key uri == place) := by
        refine List.countP_mono_left fun uri _ hplace => ?_
        exact beq_iff_eq.2 (hkey uri (of_decide_eq_true hplace))
    _ = (uris.map store.key).count place := by
        rw [List.count, List.countP_map]
        rfl
    _ ≤ 1 := List.nodup_iff_count_le_one.1 h place

/-- The entry and the stylesheets that a tree shows have different keys. Only below these stands
anything, so what is at one place is expanded at most once, whatever uris lead there. -/
theorem follow_shows_once (chain : Chain) (store : Store) (options : FollowOptions)
    (entry text : Text) :
    ((follow chain store options entry text).1.resolved.map store.key).Nodup ∧
      (∀ uri ∈ (follow chain store options entry text).1.resolved,
        store.key uri ≠ store.key entry) ∧
      (∀ p ∈ (follow chain store options entry text).1.placements, p.node.children ≠ [] →
        ∃ uri, p.node.outcome = .resolved uri) ∧
      ∀ place, (entry :: (follow chain store options entry text).1.resolved).countP
        (fun uri => (store.canonical uri).toOption = some place) ≤ 1 := by
  have hnodup := follow_nodup_keys chain store options entry text
  have hentry : ∀ uri ∈ (follow chain store options entry text).1.resolved,
      store.key uri ≠ store.key entry := by
    obtain ⟨seen, h⟩ := follow_follows chain store options entry text
    exact fun uri huri hkey => h.nodup.2 uri huri (List.mem_singleton.2 hkey)
  refine ⟨hnodup, hentry, fun p hp hchildren => ?_, countP_canonical_le_one ?_⟩
  · obtain ⟨child, hchild⟩ := List.exists_mem_of_ne_nil _ hchildren
    obtain ⟨uri, huri, -⟩ := (follow_accounted chain store options entry text p hp).of_child hchild
    exact ⟨uri, huri⟩
  · rw [List.map_cons, List.nodup_cons]
    refine ⟨fun hmem => ?_, hnodup⟩
    obtain ⟨uri, huri, hkey⟩ := List.mem_map.1 hmem
    exact hentry uri huri hkey

namespace Follow

/-! ## What is read -/

/-- A directive whose stylesheet is read: it was not seen before and stands above the limit. -/
structure Draws (chain : Chain) (store : Store) (options : FollowOptions) (depth : Nat)
    (parent : Text) (directive : Directive) (seen : List Text) (source : Source) : Prop where
  kind : directive.kind = .stylesheet
  found : Follow.found chain store parent directive = .ok (some source)
  fresh : store.key source.uri ∉ seen
  deeper : atLimit options depth = false

/-- A run (`Follows`) with the sources that are read in it, in order. -/
inductive Reads (chain : Chain) (store : Store) (options : FollowOptions) :
    Nat → Text → List Directive → List Text → List ImportNode → List Source → List Text → Prop
  | nil {depth : Nat} {parent : Text} {seen : List Text} :
    Reads chain store options depth parent [] seen [] [] seen
  | idle {depth : Nat} {parent : Text} {directive : Directive} {directives : List Directive}
      {seen seen' seen'' : List Text} {node : ImportNode} {nodes : List ImportNode}
      {sources : List Source}
      (hidle : ∀ source, ¬ Draws chain store options depth parent directive seen source)
      (hleaf : Leaf chain store options depth parent directive seen node seen')
      (hrest : Reads chain store options depth parent directives seen' nodes sources seen'') :
    Reads chain store options depth parent (directive :: directives) seen (node :: nodes) sources
      seen''
  | unreadable {depth : Nat} {parent : Text} {directive : Directive} {directives : List Directive}
      {seen seen' : List Text} {nodes : List ImportNode} {source : Source} {error : ImportError}
      {sources : List Source}
      (hdraws : Draws chain store options depth parent directive seen source)
      (hread : source.readText = .error error)
      (hrest : Reads chain store options depth parent directives (store.key source.uri :: seen)
        nodes sources seen') :
    Reads chain store options depth parent (directive :: directives) seen
      (⟨directive, .failed error.message, shown chain options parent directive, []⟩ :: nodes)
      (source :: sources) seen'
  | entered {depth : Nat} {parent : Text} {directive : Directive} {directives : List Directive}
      {seen seen' seen'' : List Text} {children nodes : List ImportNode} {source : Source}
      {text : Text} {below sources : List Source}
      (henters : Enters chain store options depth parent directive seen source text)
      (hbelow : Reads chain store options (depth + 1) source.uri (Stylesheet.imports text)
        (store.key source.uri :: seen) children below seen')
      (hrest : Reads chain store options depth parent directives seen' nodes sources seen'') :
    Reads chain store options depth parent (directive :: directives) seen
      (⟨directive, .resolved source.uri, shown chain options parent directive, children⟩ :: nodes)
      (source :: (below ++ sources)) seen''

/-- For a directive that becomes a leaf nothing is read, or reading fails. -/
theorem Leaf.draws_cases {depth : Nat} {parent : Text} {directive : Directive}
    {seen seen' : List Text} {node : ImportNode}
    (h : Leaf chain store options depth parent directive seen node seen') :
    (∀ source, ¬ Draws chain store options depth parent directive seen source) ∨
      ∃ source error, Draws chain store options depth parent directive seen source ∧
        source.readText = .error error ∧
        node = ⟨directive, .failed error.message, shown chain options parent directive, []⟩ ∧
        seen' = store.key source.uri :: seen := by
  have hsame : ∀ {source other : Source}, found chain store parent directive = .ok (some source) →
      found chain store parent directive = .ok (some other) → source = other := by
    intro source other hsource hother
    exact Option.some.inj (Except.ok.inj (hsource.symm.trans hother))
  cases h with
  | plainCss hcss => exact Or.inl fun source hdraws => by cases hcss.symm.trans hdraws.kind
  | notFound _ hnone => exact Or.inl fun source hdraws => by cases hnone.symm.trans hdraws.found
  | unopened _ herror => exact Or.inl fun source hdraws => by cases herror.symm.trans hdraws.found
  | revisited _ hfound hseen =>
    exact Or.inl fun source hdraws => hdraws.fresh (hsame hfound hdraws.found ▸ hseen)
  | limited _ _ _ hlimit =>
    exact Or.inl fun source hdraws => by cases hlimit.symm.trans hdraws.deeper
  | unreadable hkind hfound hfresh hdeeper hread =>
    exact Or.inr ⟨_, _, ⟨hkind, hfound, hfresh, hdeeper⟩, hread, rfl, rfl⟩

/-- In every run there are sources that are read. -/
theorem Follows.exists_reads {depth : Nat} {parent : Text} {directives : List Directive}
    {seen seen' : List Text} {nodes : List ImportNode}
    (h : Follows chain store options depth parent directives seen nodes seen') :
    ∃ sources, Reads chain store options depth parent directives seen nodes sources seen' := by
  induction h with
  | nil => exact ⟨[], .nil⟩
  | leaf hleaf _ ih =>
    obtain ⟨sources, hsources⟩ := ih
    rcases hleaf.draws_cases with hidle | ⟨source, error, hdraws, hread, rfl, rfl⟩
    · exact ⟨sources, .idle hidle hleaf hsources⟩
    · exact ⟨source :: sources, .unreadable hdraws hread hsources⟩
  | entered henters _ _ ihbelow ihrest =>
    obtain ⟨below, hbelow⟩ := ihbelow
    obtain ⟨sources, hsources⟩ := ihrest
    exact ⟨_, .entered henters hbelow hsources⟩

/-! ## What a run takes of finitely many keys -/

section Keys

variable {keys : List Text} (hkeys : ∀ {parent : Text} {directive : Directive} {source : Source},
  found chain store parent directive = .ok (some source) → store.key source.uri ∈ keys)

include hkeys

/-- Every source that is read takes one of the keys that were still to be seen. -/
theorem Reads.length_add_room_le {depth : Nat} {parent : Text} {directives : List Directive}
    {seen seen' : List Text} {nodes : List ImportNode} {sources : List Source}
    (h : Reads chain store options depth parent directives seen nodes sources seen') :
    sources.length + room keys seen' ≤ room keys seen := by
  induction h with
  | nil => exact Nat.le_of_eq (Nat.zero_add _)
  | idle _ hleaf _ ih => exact Nat.le_trans ih (room_le_of_subset keys hleaf.subset)
  | unreadable hdraws _ _ ih =>
    have hless := room_cons_lt (hkeys hdraws.found) hdraws.fresh
    rw [List.length_cons]
    omega
  | entered henters _ _ ihbelow ihrest =>
    have hless := room_cons_lt (hkeys henters.found) henters.fresh
    rw [List.length_cons, List.length_append]
    omega

/-- No node stands deeper than there are keys to be seen. -/
theorem Follows.depth_le {depth : Nat} {parent : Text} {directives : List Directive}
    {seen seen' : List Text} {nodes : List ImportNode}
    (h : Follows chain store options depth parent directives seen nodes seen') :
    ∀ p ∈ placementsAll parent depth nodes, p.depth ≤ depth + room keys seen := by
  induction h with
  | nil =>
    intro p hp
    rw [placementsAll] at hp
    cases hp
  | leaf hleaf _ ih =>
    intro p hp
    rw [hleaf.placementsAll_cons] at hp
    rcases List.mem_cons.1 hp with rfl | hp
    · exact Nat.le_add_right _ _
    · have hroom := room_le_of_subset keys hleaf.subset
      have hle := ih p hp
      omega
  | entered henters hbelow _ ihbelow ihrest =>
    intro p hp
    -- the key that is entered pays for the level below it
    have hless := room_cons_lt (hkeys henters.found) henters.fresh
    have hroom := room_le_of_subset keys hbelow.subset
    rw [placementsAll_cons] at hp
    rcases List.mem_cons.1 hp with rfl | hp
    · exact Nat.le_add_right _ _
    rcases List.mem_append.1 hp with hp | hp
    · have hle := ihbelow p hp
      omega
    · have hle := ihrest p hp
      omega

end Keys

/-! ## Levels do not matter -/

/-- What becomes of a directive depends on the way to follow a stylesheet only if it is entered. -/
theorem visit_congr {descend descend' : Text → Text → List Text → Expansion} {depth : Nat}
    {parent : Text} {directive : Directive} {seen : List Text}
    (h : ∀ source text, Enters chain store options depth parent directive seen source text →
      descend source.uri text (store.key source.uri :: seen)
        = descend' source.uri text (store.key source.uri :: seen)) :
    visit chain store options descend depth ⟨parent⟩ directive seen
      = visit chain store options descend' depth ⟨parent⟩ directive seen := by
  have halike : Alike options options
      (visited chain store options descend depth parent directive seen)
      (visited chain store options descend' depth parent directive seen) := by
    refine visited_alike rfl fun source text henters => ?_
    rw [h source text henters]
    exact .refl _
  have hnode := List.singleton_inj.1 (halike.nodes rfl)
  exact Prod.ext hnode (Prod.ext halike.seen halike.events)

theorem subset_visit {descend : Text → Text → List Text → Expansion}
    (hdescend : ∀ uri text seen, seen ⊆ (descend uri text seen).seen) (depth : Nat) (parent : Text)
    (directive : Directive) (seen : List Text) :
    seen ⊆ (visit chain store options descend depth ⟨parent⟩ directive seen).2.1 := by
  rcases visit_cases descend depth parent directive seen with
    hleaf | ⟨source, text, henters, -, hseen⟩
  · exact hleaf.subset
  · rw [hseen]
    exact List.subset_of_cons_subset (hdescend _ _ _)

theorem subset_visitAll {descend : Text → Text → List Text → Expansion}
    (hdescend : ∀ uri text seen, seen ⊆ (descend uri text seen).seen) (depth : Nat) (parent : Text)
    (directives : List Directive) (seen : List Text) :
    seen ⊆ (visitAll chain store options descend depth ⟨parent⟩ directives seen).seen := by
  induction directives generalizing seen with
  | nil => exact List.Subset.refl _
  | cons directive directives ih =>
    exact List.Subset.trans (subset_visit hdescend depth parent directive seen) (ih _)

/-- A key that was seen stays seen, whatever the levels. -/
theorem subset_expand (levels : Nat) : ∀ (depth : Nat) (uri text : Text) (seen : List Text),
    seen ⊆ (expand chain store options levels depth uri text seen).seen := by
  induction levels with
  | zero => exact fun _ _ _ seen => List.Subset.refl seen
  | succ levels ih =>
    exact fun depth uri text seen => subset_visitAll (ih (depth + 1)) depth uri _ seen

/-- Two ways to follow a stylesheet give the same if they agree wherever more has been seen. -/
theorem visitAll_congr {descend descend' : Text → Text → List Text → Expansion}
    (hdescend : ∀ uri text seen, seen ⊆ (descend uri text seen).seen) {depth : Nat} {parent : Text}
    (directives : List Directive) (seen : List Text)
    (h : ∀ directive seen' source text, seen ⊆ seen' →
      Enters chain store options depth parent directive seen' source text →
        descend source.uri text (store.key source.uri :: seen')
          = descend' source.uri text (store.key source.uri :: seen')) :
    visitAll chain store options descend depth ⟨parent⟩ directives seen
      = visitAll chain store options descend' depth ⟨parent⟩ directives seen := by
  induction directives generalizing seen with
  | nil => rfl
  | cons directive directives ih =>
    have hfirst : visit chain store options descend depth ⟨parent⟩ directive seen
        = visit chain store options descend' depth ⟨parent⟩ directive seen :=
      visit_congr fun source text henters =>
        h directive seen source text (List.Subset.refl _) henters
    -- what has been seen only grows, so the hypothesis speaks of the directives that come after too
    have hothers := ih (visit chain store options descend depth ⟨parent⟩ directive seen).2.1
      fun other seen' source text hsubset henters => h other seen' source text
        (List.Subset.trans (subset_visit hdescend depth parent directive seen) hsubset) henters
    simp only [visitAll]
    rw [hothers, hfirst]

/-- Two numbers of levels give the same if each is larger than the room in some list of keys. -/
theorem expand_congr {keys keys' : List Text}
    (hkeys : ∀ {parent : Text} {directive : Directive} {source : Source},
      found chain store parent directive = .ok (some source) → store.key source.uri ∈ keys)
    (hkeys' : ∀ {parent : Text} {directive : Directive} {source : Source},
      found chain store parent directive = .ok (some source) → store.key source.uri ∈ keys')
    (levels levels' : Nat) (depth : Nat) (uri text : Text) (seen : List Text)
    (hlevels : room keys seen < levels) (hlevels' : room keys' seen < levels') :
    expand chain store options levels depth uri text seen
      = expand chain store options levels' depth uri text seen := by
  induction levels generalizing levels' depth uri text seen with
  | zero => exact absurd hlevels (Nat.not_lt_zero _)
  | succ levels ih =>
    cases levels' with
    | zero => exact absurd hlevels' (Nat.not_lt_zero _)
    | succ levels' =>
      rw [expand, expand]
      refine visitAll_congr (subset_expand levels (depth + 1)) _ _ ?_
      intro directive seen' source text hsubset henters
      -- what is entered takes room from both lists
      have hless := room_cons_lt (hkeys henters.found) henters.fresh
      have hless' := room_cons_lt (hkeys' henters.found) henters.fresh
      have hroom := room_le_of_subset keys hsubset
      have hroom' := room_le_of_subset keys' hsubset
      exact ih levels' (depth + 1) source.uri text _ (by omega) (by omega)

end Follow

/-! ## The end of a run -/

/-- What a lookup finds was opened, so its key is one of the finitely many. -/
theorem Follow.key_mem_of_found {keys : Finset Text}
    (hkeys : ∀ strategy ∈ chain, ∀ uri stream, strategy.openUri store uri = .ok (some stream) →
      store.key uri ∈ keys)
    {parent : Text} {directive : Directive} {source : Source}
    (h : found chain store parent directive = .ok (some source)) :
    store.key source.uri ∈ keys.toList := by
  obtain ⟨strategy, hstrategy, hopen⟩ := Chain.exists_openUri_of_resolve h
  exact Finset.mem_toList.2 (hkeys strategy hstrategy source.uri _ hopen)

/-- When a run begins, one key has been seen. -/
theorem Follow.room_toList (keys : Finset Text) (key : Text) :
    room keys.toList [key] = (keys.erase key).card := by
  have hfilter : (keys.toList.filter fun other => !List.contains [key] other).toFinset
      = keys.erase key := by
    ext other
    simp [and_comm]
  rw [room, List.countP_eq_length_filter, ← hfilter]
  exact (List.toFinset_card_of_nodup (keys.nodup_toList.filter _)).symm

/-- Where a chain opens stylesheets of finitely many keys only, a run ends: it is a finite one, it
reads at most one source for each key but that of the entry, and it is the same for all numbers of
levels that are larger than this. No node stands deeper than there are keys, and one. -/
theorem follow_ends (chain : Chain) (store : Store) (keys : Finset Text)
    (hkeys : ∀ strategy ∈ chain, ∀ uri stream, strategy.openUri store uri = .ok (some stream) →
      store.key uri ∈ keys)
    (options : FollowOptions) (entry text : Text) :
    (∃ sources seen, Reads chain store options 1 entry (Stylesheet.imports text) [store.key entry]
        (follow chain store options entry text).1.imports sources seen) ∧
      (∀ nodes sources seen, Reads chain store options 1 entry (Stylesheet.imports text)
        [store.key entry] nodes sources seen →
          sources.length ≤ (keys.erase (store.key entry)).card) ∧
      (∀ levels, (keys.erase (store.key entry)).card < levels →
        let expansion := expand chain store options levels 1 entry text [store.key entry]
        follow chain store options entry text
          = (⟨entry, expansion.nodes⟩, expansion.events)) ∧
      ∀ p ∈ (follow chain store options entry text).1.placements, p.depth ≤ keys.card + 1 := by
  obtain ⟨seen, hfollows⟩ := follow_follows chain store options entry text
  have hroom := room_toList keys (store.key entry)
  have hcard := Finset.card_erase_le (s := keys) (a := store.key entry)
  refine ⟨?_, fun nodes sources seen hreads => ?_, fun levels hlevels => ?_, fun p hp => ?_⟩
  · obtain ⟨sources, hreads⟩ := hfollows.exists_reads
    exact ⟨sources, seen, hreads⟩
  · have hle := hreads.length_add_room_le (key_mem_of_found hkeys)
    omega
  · obtain ⟨keys', hlength, hkeys'⟩ := chain.exists_keys store
    have hbound := room_le keys' [store.key entry]
    have hsame : expand chain store options (chain.keyBound store + 1) 1 entry text
          [store.key entry]
        = expand chain store options levels 1 entry text [store.key entry] :=
      expand_congr hkeys' (key_mem_of_found hkeys) _ _ _ _ _ _ (by omega) (by omega)
    rw [follow, hsame]
  · have hle := hfollows.depth_le (key_mem_of_found hkeys) p hp
    omega

/-- A directory with one stylesheet and with a link to itself, so that endlessly many paths lead to
the stylesheet. -/
def loopedDirectory : Store where
  kind path := if "/a.scss".toList.isSuffixOf path then .ok .file else .error .absent
  look path := if "/a.scss".toList.isSuffixOf path then
      .ok (.file (Utf8.encode "@import 'loop/a';".toList))
    else .error .absent
  canonical path := if "/a.scss".toList.isSuffixOf path then .ok "/d/a.scss".toList
    else .error .absent
  keyBound := 1
  bounded := by
    refine ⟨["/d/a.scss".toList], Nat.le_refl 1, fun {path} {content} h => ?_⟩
    split at h
    next hsuffix =>
      rw [if_pos hsuffix]
      exact List.mem_singleton.2 rfl
    next => cases h

theorem follow_loopedDirectory :
    (∀ strategy ∈ [Strategy.filesystem []], ∀ uri stream,
        strategy.openUri loopedDirectory uri = .ok (some stream) →
          loopedDirectory.key uri ∈ ({"/d/a.scss".toList} : Finset Text)) ∧
      (∀ nodes sources seen, Reads [.filesystem []] loopedDirectory {} 1 "/d/main.scss".toList
        (Stylesheet.imports "@import 'a';".toList) ["/d/main.scss".toList] nodes sources seen →
          sources.length ≤ 1) ∧
      ∀ p ∈ (follow [.filesystem []] loopedDirectory {} "/d/main.scss".toList
        "@import 'a';".toList).1.placements, p.depth ≤ 2 := by
  have hkeys : ∀ strategy ∈ [Strategy.filesystem []], ∀ uri stream,
      strategy.openUri loopedDirectory uri = .ok (some stream) →
        loopedDirectory.key uri ∈ ({"/d/a.scss".toList} : Finset Text) := by
    intro strategy hstrategy uri stream hopen
    obtain rfl := List.mem_singleton.1 hstrategy
    obtain ⟨content, hlook⟩ := Strategy.exists_content_of_openFile hopen
    simp only [loopedDirectory] at hlook
    split at hlook
    next hsuffix =>
      refine Finset.mem_singleton.2 (Store.key_of_canonical ?_)
      simp only [loopedDirectory]
      rw [if_pos hsuffix]
    next => cases hlook
  obtain ⟨-, hreads, -, hdepth⟩ := follow_ends [.filesystem []] loopedDirectory _ hkeys {}
    "/d/main.scss".toList "@import 'a';".toList
  exact ⟨hkeys, hreads, hdepth⟩

/-! ## Resolvers of any kind -/

namespace Resolver

/-- Whether a resolver opens something at a uri. -/
def opens (resolver : Resolver) (store : Store) (uri : Text) : Bool :=
  match resolver.openUri store uri with
  | .ok (some _) => true
  | _ => false

/-- A resolver as a strategy: whatever store it is asked about, it opens what it opens in the given
one, unless nothing is found there. -/
def fixed (resolver : Resolver) (store : Store) : Strategy where
  name := resolver.name
  candidates := resolver.candidates
  openUri asked uri :=
    if resolver.opens store uri ∧ (asked.look uri).toOption = none then .ok none
    else resolver.openUri store uri
  holdings := []
  mem_holdings {asked} {uri} {stream} h := by
    right
    split at h
    · cases h
    next hfound =>
      have hopens : resolver.opens store uri = true := by
        rw [opens, h]
      cases hlook : asked.look uri with
      | ok content => exact ⟨content, rfl⟩
      | error cause => exact absurd ⟨hopens, by rw [hlook]; rfl⟩ hfound

end Resolver

/-- The store in which something is found where one of the resolvers opens something. -/
def Store.opened (store : Store) (resolvers : List Resolver) (keys : List Text)
    (hkeys : ∀ resolver ∈ resolvers, ∀ uri,
      resolver.opens store uri = true → store.key uri ∈ keys) :
    Store where
  kind := store.kind
  look uri := if resolvers.any (·.opens store uri) then .ok (.file []) else .error .absent
  canonical := store.canonical
  keyBound := keys.length
  bounded := by
    refine ⟨keys, Nat.le_refl _, fun {uri} {content} h => ?_⟩
    split at h
    next hany =>
      obtain ⟨resolver, hresolver, hopens⟩ := List.any_eq_true.1 hany
      exact hkeys resolver hresolver uri hopens
    next => cases h

/-- In a store where everything that the resolvers open is found, the strategy opens what the
resolver does. -/
theorem Resolver.openUri_fixed {store : Store} {resolvers : List Resolver} {keys : List Text}
    (hkeys : ∀ resolver ∈ resolvers, ∀ uri, resolver.opens store uri = true → store.key uri ∈ keys)
    {resolver : Resolver} (h : resolver ∈ resolvers) (uri : Text) :
    (resolver.fixed store).openUri (store.opened resolvers keys hkeys) uri
      = resolver.openUri store uri := by
  refine if_neg ?_
  rintro ⟨hopens, hlook⟩
  have hany : resolvers.any (·.opens store uri) = true := List.any_eq_true.2 ⟨resolver, h, hopens⟩
  simp only [Store.opened, if_pos hany] at hlook
  cases hlook

/-- Resolvers of any kind that open stylesheets of finitely many keys make up a chain: there is a
store with the same keys in which it tries and finds what they try and find. -/
theorem exists_chain (store : Store) (resolvers : List Resolver) (keys : List Text)
    (hkeys : ∀ resolver ∈ resolvers, ∀ uri,
      resolver.opens store uri = true → store.key uri ∈ keys) :
    ∃ (chain : Chain) (held : Store), (∀ uri, held.key uri = store.key uri) ∧
      ∀ parent identifier,
        chain.candidates parent identifier = Resolver.uris resolvers parent identifier ∧
        chain.resolve held parent identifier
          = Resolver.resolveFirst store parent identifier resolvers := by
  refine ⟨resolvers.map (·.fixed store), store.opened resolvers keys hkeys, fun _ => rfl, ?_⟩
  intro parent identifier
  constructor
  · rw [Chain.candidates, Chain.resolvers, Resolver.uris, List.map_map, List.flatMap_map]
    rfl
  · rw [Chain.resolve, Chain.resolvers, Resolver.resolveFirst_eq_openFirst,
      Resolver.resolveFirst_eq_openFirst]
    refine Resolver.openFirst_congr ?_ identifier
    rw [Resolver.probes, Resolver.probes, List.map_map, List.flatMap_map, List.map_flatMap,
      List.map_flatMap]
    refine List.flatMap_congr fun resolver hresolver => ?_
    rw [Resolver.ownProbes, Resolver.ownProbes, List.map_map, List.map_map]
    refine List.map_congr_left fun candidate _ => Prod.ext rfl ?_
    simp only [Function.comp, Probe.seen, Probe.opened]
    rw [Resolver.openUri_fixed hkeys hresolver]

end SheetImports
