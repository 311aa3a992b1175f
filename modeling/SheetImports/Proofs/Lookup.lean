import SheetImports.Chain
import SheetImports.Strategy.Faulty
import SheetImports.Strategy.Filesystem

/-!
# What a lookup opens

A lookup runs through the resolvers, and for each of them through its candidates. Both loops
together run through one flat list, the `probes` of the lookup: its uris are those that the
resolvers list (`map_uri_probes`), and the lookup opens them in order up to the first that is not
missing (`resolveFirst_eq_openFirst`). So the position of that probe decides what is found, what is
reported, and what is left unopened (`resolveFirst_opens_first`).
-/

namespace SheetImports

/-- A uri that a resolver tries. -/
structure Probe where
  resolver : Resolver
  uri : Text

namespace Probe

def event (probe : Probe) : Event := .probing probe.resolver.name probe.uri

def opened (probe : Probe) (store : Store) : Except ImportError (Option Source) :=
  match probe.resolver.openUri store probe.uri with
  | .ok stream => .ok (stream.map (⟨probe.uri, ·⟩))
  | .error error => .error error

/-- Nothing is there, so that the next probe has its turn. -/
def Missing (probe : Probe) (store : Store) : Prop := probe.opened store = .ok none

instance (probe : Probe) (store : Store) : Decidable (probe.Missing store) :=
  match h : probe.opened store with
  | .ok none => isTrue h
  | .ok (some _) => isFalse fun hnone => by rw [Missing, h] at hnone; cases hnone
  | .error _ => isFalse fun hnone => by rw [Missing, h] at hnone; cases hnone

/-- What is reported on a probe that ends the lookup of an identifier, once it is opened. -/
def report (probe : Probe) (store : Store) (identifier : Text) : List Event :=
  match probe.opened store with
  | .ok (some source) => [.resolved probe.resolver.name identifier source.uri]
  | _ => []

/-- What a lookup learns from a probe when it opens it. -/
def seen (probe : Probe) (store : Store) : Event × Except ImportError (Option Source) :=
  (probe.event, probe.opened store)

theorem uri_of_opened {probe : Probe} {store : Store} {source : Source}
    (h : probe.opened store = .ok (some source)) : source.uri = probe.uri := by
  unfold opened at h
  split at h
  · obtain ⟨stream, -, rfl⟩ := Option.map_eq_some_iff.1 (Except.ok.inj h)
    rfl
  · cases h

end Probe

theorem Chain.resolvers_add (chain : Chain) (strategy : Strategy) :
    (chain.add strategy).resolvers = chain.resolvers ++ [strategy.toResolver] :=
  List.map_append

namespace Resolver

/-! ## The flat search -/

/-- The candidates of a resolver for an import, as it tries them. -/
def ownProbes (resolver : Resolver) (candidates : List Text) : List Probe :=
  candidates.map fun candidate => ⟨resolver, Candidate.complete candidate⟩

/-- The candidates of several resolvers for an import, each with the resolver that tries it. -/
def probes (resolvers : List Resolver) (parent : Parent) (identifier : Text) : List Probe :=
  resolvers.flatMap fun resolver => resolver.ownProbes (resolver.candidates parent identifier)

/-- The lookup that opens probes in order up to the first that is not missing. -/
def openFirst (store : Store) (identifier : Text) : List Probe → Lookup
  | [] => ⟨.ok none, []⟩
  | probe :: probes =>
    match probe.opened store with
    | .ok none =>
      let later := openFirst store identifier probes
      ⟨later.outcome, probe.event :: later.events⟩
    | outcome => ⟨outcome, probe.event :: probe.report store identifier⟩

/-- A probe that is missing leaves its event and hands the search on. -/
theorem openFirst_cons_of_missing {store : Store} {probe : Probe} (h : probe.Missing store)
    (identifier : Text) (probes : List Probe) :
    openFirst store identifier (probe :: probes)
      = ⟨(openFirst store identifier probes).outcome,
        probe.event :: (openFirst store identifier probes).events⟩ := by
  rw [openFirst, show probe.opened store = _ from h]

/-- A probe that is not missing ends the search, found or failed. -/
theorem openFirst_cons_of_opened {store : Store} {probe : Probe} (h : ¬ probe.Missing store)
    (identifier : Text) (probes : List Probe) :
    openFirst store identifier (probe :: probes)
      = ⟨probe.opened store, probe.event :: probe.report store identifier⟩ := by
  rw [openFirst]
  split
  · next hmissing => exact absurd hmissing h
  · rfl

theorem openFirst_append_of_missing {store : Store} {first : List Probe}
    (h : ∀ probe ∈ first, probe.Missing store) (identifier : Text) (probes : List Probe) :
    openFirst store identifier (first ++ probes)
      = ⟨(openFirst store identifier probes).outcome,
        first.map Probe.event ++ (openFirst store identifier probes).events⟩ := by
  induction first with
  | nil => rfl
  | cons probe first ih =>
    have hfirst := ih fun other hother => h other (List.mem_cons_of_mem _ hother)
    rw [List.cons_append, openFirst_cons_of_missing (h probe List.mem_cons_self), hfirst]
    rfl

/-- Probes that come later have their turn if all probes before them are missing. -/
theorem openFirst_append (store : Store) (identifier : Text) (first probes : List Probe) :
    openFirst store identifier (first ++ probes)
      = match (openFirst store identifier first).outcome with
        | .ok none =>
          ⟨(openFirst store identifier probes).outcome,
            (openFirst store identifier first).events
              ++ (openFirst store identifier probes).events⟩
        | _ => openFirst store identifier first := by
  induction first with
  | nil => rfl
  | cons probe first ih =>
    rw [List.cons_append]
    by_cases h : probe.Missing store
    · rw [openFirst_cons_of_missing h, openFirst_cons_of_missing h, ih]
      split
      · next hnone => simp only [hnone, List.cons_append]
      · rfl
    · rw [openFirst_cons_of_opened h, openFirst_cons_of_opened h]
      split
      · next hnone => exact absurd hnone h
      · rfl

/-! ## Both loops together -/

/-- The inner loop, over the candidates of one resolver. -/
theorem probe_eq_openFirst (resolver : Resolver) (store : Store) (identifier : Text)
    (candidates : List Text) :
    resolver.probe store identifier candidates
      = openFirst store identifier (resolver.ownProbes candidates) := by
  induction candidates with
  | nil => rfl
  | cons candidate candidates ih =>
    have hopened : resolver.openCandidate store candidate
        = Probe.opened ⟨resolver, Candidate.complete candidate⟩ store := rfl
    rw [probe, ownProbes, List.map_cons, hopened]
    split
    · next hmissing =>
      rw [ih, openFirst_cons_of_missing hmissing]
      rfl
    · next source hfound =>
      have hopen : ¬ Probe.Missing ⟨resolver, Candidate.complete candidate⟩ store := by
        rw [Probe.Missing, hfound]
        exact fun heq => by cases heq
      rw [openFirst_cons_of_opened hopen, Probe.report, hfound]
      rfl
    · next error hfailed =>
      have hopen : ¬ Probe.Missing ⟨resolver, Candidate.complete candidate⟩ store := by
        rw [Probe.Missing, hfailed]
        exact fun heq => by cases heq
      rw [openFirst_cons_of_opened hopen, Probe.report, hfailed]
      rfl

/-- A lookup is the search through its probes. -/
theorem resolveFirst_eq_openFirst (store : Store) (parent : Parent) (identifier : Text)
    (resolvers : List Resolver) :
    resolveFirst store parent identifier resolvers
      = openFirst store identifier (probes resolvers parent identifier) := by
  induction resolvers with
  | nil => rfl
  | cons resolver resolvers ih =>
    have hown : resolver.resolve store parent identifier
        = openFirst store identifier (resolver.ownProbes (resolver.candidates parent identifier)) :=
      probe_eq_openFirst resolver store identifier _
    have hprobes : probes (resolver :: resolvers) parent identifier
        = resolver.ownProbes (resolver.candidates parent identifier)
          ++ probes resolvers parent identifier := List.flatMap_cons
    rw [hprobes, openFirst_append, ← hown, ← ih]
    rfl

theorem map_uri_probes (resolvers : List Resolver) (parent : Parent) (identifier : Text) :
    (probes resolvers parent identifier).map Probe.uri = uris resolvers parent identifier := by
  rw [probes, uris, List.map_flatMap]
  refine congrArg (resolvers.flatMap ·) (funext fun resolver => ?_)
  exact List.map_map

theorem probes_append (first second : List Resolver) (parent : Parent) (identifier : Text) :
    probes (first ++ second) parent identifier
      = probes first parent identifier ++ probes second parent identifier :=
  List.flatMap_append

/-! ## The probe that decides -/

theorem openFirst_of_missing {store : Store} {probes : List Probe}
    (h : ∀ probe ∈ probes, probe.Missing store) (identifier : Text) :
    openFirst store identifier probes = ⟨.ok none, probes.map Probe.event⟩ := by
  have hall := openFirst_append_of_missing h identifier []
  rwa [List.append_nil, openFirst, List.append_nil] at hall

/-- A search that ended before the end does not see what is added behind it. -/
theorem openFirst_append_of_found {store : Store} {identifier : Text} {first : List Probe}
    (h : (openFirst store identifier first).outcome ≠ .ok none) (probes : List Probe) :
    openFirst store identifier (first ++ probes) = openFirst store identifier first := by
  rw [openFirst_append]
  split
  · next hnone => exact absurd hnone h
  · rfl

/-- A search goes by what is seen of its probes. -/
theorem openFirst_congr {store store' : Store} {probes probes' : List Probe}
    (h : probes.map (·.seen store) = probes'.map (·.seen store')) (identifier : Text) :
    openFirst store identifier probes = openFirst store' identifier probes' := by
  induction probes generalizing probes' with
  | nil =>
    obtain rfl := List.map_eq_nil_iff.1 h.symm
    rfl
  | cons probe probes ih =>
    cases probes' with
    | nil => cases h
    | cons probe' probes' =>
      obtain ⟨hseen, hothers⟩ := List.cons.inj h
      obtain ⟨hevent, hopened⟩ := Prod.mk.inj hseen
      have hname := (Event.probing.inj hevent).1
      by_cases hmissing : probe.Missing store
      · have hmissing' : probe'.Missing store' := hopened.symm.trans hmissing
        rw [openFirst_cons_of_missing hmissing, openFirst_cons_of_missing hmissing', hevent,
          ih hothers]
      · have hmissing' : ¬ probe'.Missing store' := fun h => hmissing (hopened.trans h)
        rw [openFirst_cons_of_opened hmissing, openFirst_cons_of_opened hmissing', hevent,
          Probe.report, Probe.report, hopened, hname]

/-- The uris of the probes are those that the resolvers list. If all probes are missing, nothing is
found and each of them is reported. Otherwise the first that is not missing decides: what is opened
there is found, the probes up to it are reported, and later probes, whatever they would open, make
no difference. So a resolver that is added, or a strategy that is added to a chain, changes a lookup
only if it found nothing. -/
theorem resolveFirst_opens_first (store : Store) (parent : Parent) (identifier : Text)
    (resolvers : List Resolver) :
    (probes resolvers parent identifier).map Probe.uri = uris resolvers parent identifier ∧
      ((∀ probe ∈ probes resolvers parent identifier, probe.Missing store) →
        resolveFirst store parent identifier resolvers
          = ⟨.ok none, (probes resolvers parent identifier).map Probe.event⟩) ∧
      (∀ (k : Nat) (probe : Probe), (probes resolvers parent identifier)[k]? = some probe →
        (∀ earlier ∈ (probes resolvers parent identifier).take k, earlier.Missing store) →
        ¬ probe.Missing store →
          resolveFirst store parent identifier resolvers
            = ⟨probe.opened store,
              ((probes resolvers parent identifier).take (k + 1)).map Probe.event
                ++ probe.report store identifier⟩ ∧
          (∀ source : Source, probe.opened store = .ok (some source) → source.uri = probe.uri) ∧
          ∀ (store' : Store) (parent' : Parent) (others : List Resolver),
            ((probes resolvers parent identifier).take (k + 1)).map (·.seen store)
                = ((probes others parent' identifier).take (k + 1)).map (·.seen store') →
              resolveFirst store' parent' identifier others
                = resolveFirst store parent identifier resolvers) ∧
      ((resolveFirst store parent identifier resolvers).outcome ≠ .ok none →
        (∀ added : Resolver, resolveFirst store parent identifier (resolvers ++ [added])
          = resolveFirst store parent identifier resolvers) ∧
        ∀ (chain : Chain) (strategy : Strategy), chain.resolvers = resolvers →
          (chain.add strategy).resolve store parent identifier
            = chain.resolve store parent identifier) := by
  refine ⟨map_uri_probes resolvers parent identifier, ?_, ?_, ?_⟩
  · intro hmissing
    rw [resolveFirst_eq_openFirst, openFirst_of_missing hmissing]
  · intro k probe hprobe hearlier hopen
    have htake : (probes resolvers parent identifier).take (k + 1)
        = (probes resolvers parent identifier).take k ++ [probe] := by
      rw [List.take_add_one, hprobe]
      rfl
    have hfirst : openFirst store identifier ((probes resolvers parent identifier).take (k + 1))
        = ⟨probe.opened store,
          ((probes resolvers parent identifier).take (k + 1)).map Probe.event
            ++ probe.report store identifier⟩ := by
      rw [htake, openFirst_append_of_missing hearlier, openFirst_cons_of_opened hopen,
        List.map_append, List.append_assoc]
      rfl
    -- what stands behind the probe that decides is cut off on both sides
    have hcut : ∀ (store' : Store) (parent' : Parent) (others : List Resolver),
        openFirst store' identifier ((probes others parent' identifier).take (k + 1))
            = openFirst store identifier ((probes resolvers parent identifier).take (k + 1)) →
          resolveFirst store' parent' identifier others
            = openFirst store identifier ((probes resolvers parent identifier).take (k + 1)) := by
      intro store' parent' others heq
      rw [resolveFirst_eq_openFirst, ← List.take_append_drop (k + 1) (probes others _ _), ← heq]
      refine openFirst_append_of_found ?_ _
      rw [heq, hfirst]
      exact hopen
    have hlookup := hcut store parent resolvers rfl
    refine ⟨hlookup.trans hfirst, fun source => Probe.uri_of_opened, ?_⟩
    intro store' parent' others hseen
    rw [hlookup]
    exact hcut store' parent' others (openFirst_congr hseen identifier).symm
  · intro hfound
    have hadded : ∀ added : Resolver, resolveFirst store parent identifier (resolvers ++ [added])
        = resolveFirst store parent identifier resolvers := by
      intro added
      rw [resolveFirst_eq_openFirst] at hfound ⊢
      rw [resolveFirst_eq_openFirst, probes_append]
      exact openFirst_append_of_found hfound _
    refine ⟨hadded, ?_⟩
    rintro chain strategy rfl
    rw [Chain.resolve, Chain.resolvers_add]
    exact hadded strategy.toResolver

/-- A root on disk where nothing is, before a bundle with one stylesheet under a root. -/
def bundledChain : Chain :=
  [.filesystem ["/lib".toList], .bundle ⟨["/themes".toList], [("/themes/a.scss".toList, [])]⟩]

def bundledRoots : List Resolver := bundledChain.resolvers

theorem resolveFirst_bundledRoots :
    resolveFirst .empty .anonymous "b".toList bundledRoots
        = ⟨.ok none, (probes bundledRoots .anonymous "b".toList).map Probe.event⟩ ∧
      (∃ probe, (probes bundledRoots .anonymous "a".toList)[3]? = some probe ∧
        resolveFirst .empty .anonymous "a".toList bundledRoots
          = ⟨probe.opened .empty,
            ((probes bundledRoots .anonymous "a".toList).take 4).map Probe.event
              ++ probe.report .empty "a".toList⟩ ∧
        resolveFirst .empty .anonymous "a".toList (bundledRoots ++ bundledRoots)
          = resolveFirst .empty .anonymous "a".toList bundledRoots) ∧
      (∀ added : Resolver, resolveFirst .empty .anonymous "a".toList (bundledRoots ++ [added])
        = resolveFirst .empty .anonymous "a".toList bundledRoots) ∧
      ∀ strategy : Strategy, (bundledChain.add strategy).resolve .empty .anonymous "a".toList
        = bundledChain.resolve .empty .anonymous "a".toList := by
  have hprobe : (probes bundledRoots .anonymous "a".toList)[3]?
      = some ⟨_, "/themes/a.scss".toList⟩ := rfl
  have hdecides := (resolveFirst_opens_first .empty .anonymous "a".toList bundledRoots).2.2.1 3 _
    hprobe (by decide) (by decide)
  have hadded := (resolveFirst_opens_first .empty .anonymous "a".toList bundledRoots).2.2.2
    fun hnone => by cases hnone
  refine ⟨?_, ⟨_, hprobe, hdecides.1, hdecides.2.2 _ _ _ rfl⟩, hadded.1, ?_⟩
  · exact (resolveFirst_opens_first .empty .anonymous "b".toList bundledRoots).2.1 (by decide)
  · intro strategy
    exact hadded.2 bundledChain strategy rfl

end Resolver

end SheetImports
