import SheetImports.Strategy.Basic

/-!
# Bundles

A bundle holds stylesheets that come with a program, under folded uris. The stylesheet that was put
in last under a uri is the one that is found.
-/

namespace SheetImports

/-- Stylesheets under folded uris, at most one under each. -/
structure Bundle where
  roots : List Text := []
  entries : List (Text × Bytes) := []
  deriving DecidableEq, Repr

namespace Bundle

/-- The bundle with one more stylesheet, in place of what was under its uri. -/
def insert (bundle : Bundle) (uri : Text) (bytes : Bytes) : Bundle :=
  { bundle with
    entries := (Uri.folded uri, bytes) :: bundle.entries.filter (·.1 ≠ Uri.folded uri) }

/-- The bundle of the given stylesheets, put in one after the other. -/
def ofList (roots : List Text) (entries : List (Text × Bytes)) : Bundle :=
  entries.foldl (fun bundle (uri, bytes) => bundle.insert uri bytes) { roots }

/-- The number of stylesheets. -/
def size (bundle : Bundle) : Nat := bundle.entries.length

/-- Whether there is no stylesheet. -/
def isEmpty (bundle : Bundle) : Bool := bundle.entries.isEmpty

/-- The octets under a uri. -/
def get? (bundle : Bundle) (uri : Text) : Option Bytes := bundle.entries.lookup uri

/-- The stylesheet that was put in last is found under the folded form of its uri, and all others
stay where they are. -/
theorem get?_insert (bundle : Bundle) (uri : Text) (bytes : Bytes) (other : Text) :
    (bundle.insert uri bytes).get? other =
      if other = Uri.folded uri then some bytes else bundle.get? other := by
  have hlookup : ∀ entries : List (Text × Bytes), other ≠ Uri.folded uri →
      (entries.filter (·.1 ≠ Uri.folded uri)).lookup other = entries.lookup other := by
    intro entries hother
    induction entries with
    | nil => rfl
    | cons entry entries ih =>
      obtain ⟨name, content⟩ := entry
      by_cases hname : name = Uri.folded uri
      · subst hname
        rw [List.filter_cons_of_neg (by simp), ih, Text.lookup_cons_eq_ite, if_neg hother]
      · rw [List.filter_cons_of_pos (by simpa using hname), Text.lookup_cons_eq_ite,
          Text.lookup_cons_eq_ite, ih]
  rw [get?, get?, insert, Text.lookup_cons_eq_ite]
  by_cases hother : other = Uri.folded uri
  · rw [if_pos hother, if_pos hother]
  · rw [if_neg hother, if_neg hother, hlookup _ hother]

theorem mem_of_get? {bundle : Bundle} {uri : Text} {bytes : Bytes}
    (h : bundle.get? uri = some bytes) : uri ∈ bundle.entries.map (·.1) := by
  obtain ⟨before, after, hentries, -⟩ := List.lookup_eq_some_iff.1 h
  simp [hentries]

end Bundle

/-- The strategy that looks in a bundle. -/
def Strategy.bundle (bundle : Bundle) : Strategy where
  name := "embedded".toList
  candidates parent := Candidate.all parent bundle.roots
  holdings := bundle.entries.map (·.1)
  openUri _ uri := .ok ((bundle.get? uri).map .ofBytes)
  mem_holdings h := by
    simp only [Except.ok.injEq, Option.map_eq_some_iff] at h
    obtain ⟨bytes, hget, -⟩ := h
    exact .inl (Bundle.mem_of_get? hget)

end SheetImports
