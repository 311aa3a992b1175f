import SheetImports.Strategy.Bundle

/-!
# Bundles with faults

A bundle some of whose uris cannot be opened, and some of whose stylesheets break off when they are
read. It shows what a lookup does when things go wrong.
-/

namespace SheetImports

/-- A bundle and its faults. -/
structure FaultyBundle where
  bundle : Bundle
  /-- The uris that cannot be opened, and the error that each gives. -/
  openFaults : List (Text × ImportError)
  /-- The uris whose stylesheets break off at once, and the cause. -/
  readFaults : List (Text × Cause)
  deriving DecidableEq, Repr

namespace FaultyBundle

/-- What is opened under a uri. A fault in opening comes before one in reading. -/
def openUri (faulty : FaultyBundle) (uri : Text) : Except ImportError (Option Stream) :=
  match faulty.openFaults.lookup uri with
  | some error => .error error
  | none =>
    match faulty.readFaults.lookup uri with
    | some cause => .ok (some (.broken cause))
    | none => .ok ((faulty.bundle.get? uri).map .ofBytes)

/-- The uris under which there is something. -/
def holdings (faulty : FaultyBundle) : List Text :=
  faulty.readFaults.map (·.1) ++ faulty.bundle.entries.map (·.1)

theorem mem_holdings_of_openUri {faulty : FaultyBundle} {uri : Text} {stream : Stream}
    (h : faulty.openUri uri = .ok (some stream)) : uri ∈ faulty.holdings := by
  unfold openUri at h
  split at h
  · cases h
  · split at h
    next cause hread =>
      obtain ⟨before, after, hfaults, -⟩ := List.lookup_eq_some_iff.1 hread
      simp [holdings, hfaults]
    next =>
      simp only [Except.ok.injEq, Option.map_eq_some_iff] at h
      obtain ⟨bytes, hget, -⟩ := h
      exact List.mem_append_right _ (Bundle.mem_of_get? hget)

end FaultyBundle

/-- The strategy that looks in a bundle with faults. -/
def Strategy.faulty (faulty : FaultyBundle) : Strategy where
  name := "faulty".toList
  candidates parent := Candidate.all parent faulty.bundle.roots
  holdings := faulty.holdings
  openUri _ := faulty.openUri
  mem_holdings h := .inl (FaultyBundle.mem_holdings_of_openUri h)

end SheetImports
