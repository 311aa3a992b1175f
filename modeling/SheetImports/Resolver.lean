import SheetImports.Candidate
import SheetImports.Event
import SheetImports.Source
import SheetImports.Store.Basic

/-!
# Resolvers

A resolver is one way to look stylesheets up: a name, the candidates that it makes for an import,
and what it opens under a uri. `Resolver.resolve` tries the candidates of an import in order. A
candidate that is not there passes the turn to the next one; a stylesheet or an error ends the
search. Of several resolvers the first one that finds a stylesheet or meets an error decides.
-/

namespace SheetImports

/-- A way to look stylesheets up. -/
structure Resolver where
  name : Text
  /-- The candidates of an import, in the order in which they are tried. -/
  candidates : Parent → Text → List Text
  /-- What is opened under a uri, if anything. -/
  openUri : Store → Text → Except ImportError (Option Stream)

/-- The outcome of a lookup, with what was reported on the way. -/
structure Lookup where
  outcome : Except ImportError (Option Source)
  events : List Event

namespace Resolver

/-! ## One resolver -/

/-- What a resolver opens for one candidate. -/
def openCandidate (resolver : Resolver) (store : Store) (candidate : Text) :
    Except ImportError (Option Source) :=
  let uri := Candidate.complete candidate
  match resolver.openUri store uri with
  | .ok stream => .ok (stream.map (⟨uri, ·⟩))
  | .error error => .error error

theorem openUri_of_openCandidate {resolver : Resolver} {store : Store} {candidate : Text}
    {source : Source} (h : resolver.openCandidate store candidate = .ok (some source)) :
    resolver.openUri store source.uri = .ok (some source.stream) := by
  simp only [openCandidate] at h
  split at h
  next opened hopened =>
    obtain ⟨stream, rfl, rfl⟩ := Option.map_eq_some_iff.1 (Except.ok.inj h)
    exact hopened
  next => cases h

/-- The first of the candidates that is there. -/
def probe (resolver : Resolver) (store : Store) (identifier : Text) : List Text → Lookup
  | [] => ⟨.ok none, []⟩
  | candidate :: candidates =>
    let probing := Event.probing resolver.name (Candidate.complete candidate)
    match resolver.openCandidate store candidate with
    | .ok none =>
      let later := probe resolver store identifier candidates
      ⟨later.outcome, probing :: later.events⟩
    | .ok (some source) =>
      ⟨.ok (some source), [probing, .resolved resolver.name identifier source.uri]⟩
    | .error error => ⟨.error error, [probing]⟩

theorem openUri_of_probe {resolver : Resolver} {store : Store} {identifier : Text}
    {candidates : List Text} {source : Source}
    (h : (resolver.probe store identifier candidates).outcome = .ok (some source)) :
    resolver.openUri store source.uri = .ok (some source.stream) := by
  induction candidates with
  | nil => simp [probe] at h
  | cons candidate candidates ih =>
    unfold probe at h
    cases hopen : resolver.openCandidate store candidate with
    | error error => simp [hopen] at h
    | ok found =>
      cases found with
      | none => exact ih (by simpa [hopen] using h)
      | some found =>
        obtain rfl : found = source := by simpa [hopen] using h
        exact openUri_of_openCandidate hopen

/-- The stylesheet that a resolver finds for an import. -/
def resolve (resolver : Resolver) (store : Store) (parent : Parent) (identifier : Text) : Lookup :=
  resolver.probe store identifier (resolver.candidates parent identifier)

/-! ## Several resolvers -/

/-- The stylesheet that the first of the resolvers with anything to say finds for an import. -/
def resolveFirst (store : Store) (parent : Parent) (identifier : Text) : List Resolver → Lookup
  | [] => ⟨.ok none, []⟩
  | resolver :: resolvers =>
    let first := resolver.resolve store parent identifier
    match first.outcome with
    | .ok none =>
      let later := resolveFirst store parent identifier resolvers
      ⟨later.outcome, first.events ++ later.events⟩
    | _ => first

/-- What several resolvers find was opened by one of them. -/
theorem exists_openUri_of_resolveFirst {resolvers : List Resolver} {store : Store} {parent : Parent}
    {identifier : Text} {source : Source}
    (h : (resolveFirst store parent identifier resolvers).outcome = .ok (some source)) :
    ∃ resolver ∈ resolvers, resolver.openUri store source.uri = .ok (some source.stream) := by
  induction resolvers with
  | nil => simp [resolveFirst] at h
  | cons resolver resolvers ih =>
    simp only [resolveFirst] at h
    cases hfirst : (resolver.resolve store parent identifier).outcome with
    | error error => simp [hfirst] at h
    | ok found =>
      cases found with
      | none =>
        obtain ⟨other, hother, hopen⟩ := ih (by simpa [hfirst] using h)
        exact ⟨other, List.mem_cons_of_mem _ hother, hopen⟩
      | some found =>
        obtain rfl : found = source := by simpa [hfirst] using h
        exact ⟨resolver, List.mem_cons_self, openUri_of_probe hfirst⟩

/-- The uris that several resolvers try for an import, in order. -/
def uris (resolvers : List Resolver) (parent : Parent) (identifier : Text) : List Text :=
  resolvers.flatMap fun resolver =>
    (resolver.candidates parent identifier).map Candidate.complete

end Resolver

end SheetImports
