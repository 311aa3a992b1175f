import SheetImports.Proofs.Levels
import SheetImports.Proofs.Lookup
import SheetImports.Store.Snapshot

/-!
# The candidates of a node

A node that lists candidates lists the uris of the probes that its lookup opens in order. So what
became of the node is decided by the first of them that is not missing (`Search`), and listing the
candidates changes nothing else in a tree, nor what is reported (`follow_listed`).
-/

namespace SheetImports

open Follow ImportNode

/-! ## How a search ends -/

/-- What a search through probes makes of a node: nothing is there at any of them, or the first at
which this is not so is opened and read, or cannot be. -/
inductive Search (store : Store) (probes : List Probe) : Outcome → Prop
  | missing (hmissing : ∀ probe ∈ probes, probe.Missing store) : Search store probes .notFound
  | opened {before after : List Probe} {probe : Probe} {source : Source} {outcome : Outcome}
      (hprobes : probes = before ++ probe :: after)
      (hbefore : ∀ earlier ∈ before, earlier.Missing store)
      (hopened : probe.opened store = .ok (some source)) (huri : outcome.uri? = some probe.uri) :
    Search store probes outcome
  | unread {before after : List Probe} {probe : Probe} {source : Source} {error : ImportError}
      (hprobes : probes = before ++ probe :: after)
      (hbefore : ∀ earlier ∈ before, earlier.Missing store)
      (hopened : probe.opened store = .ok (some source)) (hread : source.readText = .error error) :
    Search store probes (.failed error.message)
  | unopened {before after : List Probe} {probe : Probe} {error : ImportError}
      (hprobes : probes = before ++ probe :: after)
      (hbefore : ∀ earlier ∈ before, earlier.Missing store)
      (hopened : probe.opened store = .error error) :
    Search store probes (.failed error.message)

theorem Search.mem_uris {store : Store} {probes : List Probe} {outcome : Outcome}
    (h : Search store probes outcome) {uri : Text} (huri : outcome.uri? = some uri) :
    uri ∈ probes.map Probe.uri := by
  cases h with
  | opened hprobes _ _ hprobe =>
    rw [hprobe] at huri
    rw [hprobes, ← Option.some.inj huri]
    simp
  | _ => cases huri

namespace Resolver

/-- A search finds nothing where all probes are missing, and else what the first other one gives. -/
theorem openFirst_cases (store : Store) (identifier : Text) (probes : List Probe) :
    ((∀ probe ∈ probes, probe.Missing store) ∧
        (openFirst store identifier probes).outcome = .ok none) ∨
      ∃ before probe after, probes = before ++ probe :: after ∧
        (∀ earlier ∈ before, earlier.Missing store) ∧ ¬ probe.Missing store ∧
        (openFirst store identifier probes).outcome = probe.opened store := by
  cases hfind : probes.find? fun probe => !decide (probe.Missing store) with
  | none =>
    have hmissing : ∀ probe ∈ probes, probe.Missing store := by simpa using hfind
    exact Or.inl ⟨hmissing, by rw [openFirst_of_missing hmissing]⟩
  | some probe =>
    obtain ⟨hprobe, before, after, rfl, hbefore⟩ := List.find?_eq_some_iff_append.1 hfind
    have hopen : ¬ probe.Missing store := by simpa using hprobe
    have hmissing : ∀ earlier ∈ before, earlier.Missing store := by simpa using hbefore
    refine Or.inr ⟨before, probe, after, rfl, hmissing, hopen, ?_⟩
    rw [openFirst_append_of_missing hmissing, openFirst_cons_of_opened hopen]

end Resolver

/-! ## How a lookup ends -/

section Found

variable {chain : Chain} {store : Store} {parent : Text} {directive : Directive}

/-- The probes of a directive under the stylesheet at a uri. -/
def probesOf (chain : Chain) (parent : Text) (directive : Directive) : List Probe :=
  Resolver.probes chain.resolvers ⟨parent⟩ directive.target

theorem map_uri_probesOf (chain : Chain) (parent : Text) (directive : Directive) :
    (probesOf chain parent directive).map Probe.uri
      = chain.candidates ⟨parent⟩ directive.target :=
  Resolver.map_uri_probes _ _ _

theorem found_eq (chain : Chain) (store : Store) (parent : Text) (directive : Directive) :
    found chain store parent directive
      = (Resolver.openFirst store directive.target (probesOf chain parent directive)).outcome := by
  rw [found, Chain.resolve, Resolver.resolveFirst_eq_openFirst]
  rfl

/-- A lookup that found nothing asked all its probes, and all of them are missing. -/
theorem missing_of_found (h : found chain store parent directive = .ok none) :
    ∀ probe ∈ probesOf chain parent directive, probe.Missing store := by
  rw [found_eq] at h
  rcases Resolver.openFirst_cases store directive.target (probesOf chain parent directive) with
    ⟨hmissing, -⟩ | ⟨before, probe, after, -, -, hopen, houtcome⟩
  · exact hmissing
  · exact absurd (houtcome.symm.trans h) hopen

/-- A lookup that found something, or failed, was decided by one probe, and all before it are
missing. -/
theorem exists_probe_of_found {outcome : Except ImportError (Option Source)}
    (h : found chain store parent directive = outcome) (hne : outcome ≠ .ok none) :
    ∃ before probe after, probesOf chain parent directive = before ++ probe :: after ∧
      (∀ earlier ∈ before, earlier.Missing store) ∧ probe.opened store = outcome := by
  rw [found_eq] at h
  rcases Resolver.openFirst_cases store directive.target (probesOf chain parent directive) with
    ⟨-, hnone⟩ | ⟨before, probe, after, hprobes, hbefore, -, houtcome⟩
  · exact absurd (h.symm.trans hnone) hne
  · exact ⟨before, probe, after, hprobes, hbefore, houtcome.symm.trans h⟩

/-- What was found ends the search at the probe of its uri. -/
theorem search_of_source {source : Source} {outcome : Outcome}
    (h : found chain store parent directive = .ok (some source))
    (huri : outcome.uri? = some source.uri) :
    Search store (probesOf chain parent directive) outcome := by
  obtain ⟨before, probe, after, hprobes, hbefore, hopened⟩ := exists_probe_of_found h nofun
  refine .opened hprobes hbefore hopened ?_
  rw [huri, Probe.uri_of_opened hopened]

end Found

/-! ## The nodes of a run -/

namespace Follow

variable {chain : Chain} {store : Store} {options : FollowOptions}

/-- A node of a plain import lists nothing; every other one lists its candidates if they are asked
for, and says how their search ends. -/
def Listed (chain : Chain) (store : Store) (options : FollowOptions) (p : Placement) : Prop :=
  (p.node.outcome = .plainCss ∧ p.node.candidates = []) ∨
    p.node.outcome ≠ .plainCss ∧
      p.node.candidates = shown chain options p.parent p.node.directive ∧
      Search store (probesOf chain p.parent p.node.directive) p.node.outcome

/-- A node that is not followed lists what was probed for it. -/
theorem Leaf.listed {depth : Nat} {parent : Text} {directive : Directive}
    {seen seen' : List Text} {node : ImportNode}
    (h : Leaf chain store options depth parent directive seen node seen') :
    Listed chain store options ⟨parent, depth, node⟩ := by
  cases h with
  | plainCss => exact Or.inl ⟨rfl, rfl⟩
  | notFound _ hfound => exact Or.inr ⟨nofun, rfl, .missing (missing_of_found hfound)⟩
  | unopened _ hfound =>
    obtain ⟨before, probe, after, hprobes, hbefore, hopened⟩ := exists_probe_of_found hfound nofun
    exact Or.inr ⟨nofun, rfl, .unopened hprobes hbefore hopened⟩
  | revisited _ hfound => exact Or.inr ⟨nofun, rfl, search_of_source hfound rfl⟩
  | limited _ hfound => exact Or.inr ⟨nofun, rfl, search_of_source hfound rfl⟩
  | unreadable _ hfound _ _ hread =>
    obtain ⟨before, probe, after, hprobes, hbefore, hopened⟩ := exists_probe_of_found hfound nofun
    exact Or.inr ⟨nofun, rfl, .unread hprobes hbefore hopened hread⟩

/-- Every node of a run does, at any depth. -/
theorem follow_lists (chain : Chain) (store : Store) (options : FollowOptions)
    (entry text : Text) :
    ∀ p ∈ (follow chain store options entry text).1.placements, Listed chain store options p := by
  obtain ⟨seen, h⟩ := follow_follows chain store options entry text
  refine h.forall_placements (fun hleaf => hleaf.listed) fun henters _ => ?_
  exact Or.inr ⟨nofun, rfl, search_of_source henters.found rfl⟩

end Follow

/-- Listing candidates changes nothing else in a tree, nor what is reported. Without it no node
lists any. With it all nodes but those of plain imports list the candidates of their lookup, in the
order of its probes: what became of the node comes from the first of these that is not missing, and
the uri that was opened is among them. -/
theorem follow_listed (chain : Chain) (store : Store) (maxDepth : Option Nat) (entry text : Text) :
    (follow chain store ⟨maxDepth, true⟩ entry text).1.bare
        = (follow chain store ⟨maxDepth, false⟩ entry text).1.bare ∧
      (follow chain store ⟨maxDepth, true⟩ entry text).2
        = (follow chain store ⟨maxDepth, false⟩ entry text).2 ∧
      (∀ p ∈ (follow chain store ⟨maxDepth, false⟩ entry text).1.placements,
        p.node.candidates = []) ∧
      ∀ p ∈ (follow chain store ⟨maxDepth, true⟩ entry text).1.placements,
        (p.node.outcome = .plainCss → p.node.candidates = []) ∧
        (p.node.outcome ≠ .plainCss →
          p.node.candidates = chain.candidates ⟨p.parent⟩ p.node.directive.target ∧
          p.node.candidates = (probesOf chain p.parent p.node.directive).map Probe.uri ∧
          Search store (probesOf chain p.parent p.node.directive) p.node.outcome) ∧
        ∀ uri, p.node.outcome.uri? = some uri → uri ∈ p.node.candidates := by
  have hlimits : LimitsAgree ⟨maxDepth, true⟩ ⟨maxDepth, false⟩
      (follow chain store ⟨maxDepth, true⟩ entry text).1.placements := fun _ _ => rfl
  obtain ⟨hbare, hevents, -⟩ := follow_alike hlimits
  refine ⟨hbare, hevents, fun p hp => ?_, fun p hp => ?_⟩
  · rcases follow_lists chain store ⟨maxDepth, false⟩ entry text p hp with
      ⟨-, hnone⟩ | ⟨-, hnone, -⟩
    · exact hnone
    · exact hnone
  rcases follow_lists chain store ⟨maxDepth, true⟩ entry text p hp with
    ⟨hcss, hnone⟩ | ⟨hcss, hlists, hsearch⟩
  · refine ⟨fun _ => hnone, fun hne => absurd hcss hne, fun uri huri => ?_⟩
    rw [hcss] at huri
    cases huri
  · have hcandidates : p.node.candidates
        = chain.candidates ⟨p.parent⟩ p.node.directive.target := hlists
    have hprobes := hcandidates.trans (map_uri_probesOf chain p.parent p.node.directive).symm
    refine ⟨fun heq => absurd heq hcss, fun _ => ⟨hcandidates, hprobes, hsearch⟩, ?_⟩
    intro uri huri
    rw [hprobes]
    exact hsearch.mem_uris huri

/-- A file that is found under a search root only. -/
def sharedLibrary : Snapshot where
  answers := [("/lib/a.scss".toList, .opened (.file []) "/lib/a.scss".toList)]

theorem follow_listed_sharedLibrary :
    ∃ p ∈ (follow [.bundle {}, .filesystem ["/lib".toList]] sharedLibrary.toStore ⟨none, true⟩
        "/main.scss".toList "@import 'a';".toList).1.placements,
      p.node.outcome = .resolved "/lib/a.scss".toList ∧ p.node.outcome ≠ .plainCss ∧
      p.node.candidates = ["/a.scss".toList, "/a.scss".toList, "/lib/a.scss".toList] ∧
      "/lib/a.scss".toList ∈ p.node.candidates := by
  obtain ⟨p, hp, houtcome, hcandidates⟩ :
      ∃ p ∈ (follow [.bundle {}, .filesystem ["/lib".toList]] sharedLibrary.toStore ⟨none, true⟩
          "/main.scss".toList "@import 'a';".toList).1.placements,
        p.node.outcome = .resolved "/lib/a.scss".toList ∧
        p.node.candidates = ["/a.scss".toList, "/a.scss".toList, "/lib/a.scss".toList] := by
    decide +kernel
  have hlisted := (follow_listed _ _ none _ _).2.2.2 p hp
  refine ⟨p, hp, houtcome, ?_, hcandidates, hlisted.2.2 _ ?_⟩
  · rw [houtcome]
    exact Outcome.noConfusion
  · rw [houtcome]
    rfl

end SheetImports
