import SheetImports.Strategy.Basic

/-!
# The file system as a strategy

Stylesheets are files. A path where nothing is, or a directory, is not there; a path that cannot be
walked for another reason is an error.
-/

namespace SheetImports.Strategy

/-- The file at a uri, if there is one. -/
def openFile (store : Store) (uri : Text) : Except ImportError (Option Stream) :=
  match store.look uri with
  | .ok (.file bytes) => .ok (some (.ofBytes bytes))
  | .ok .directory => .ok none
  | .error cause => if cause.isMissing then .ok none else .error (.cannotOpen uri cause)

theorem exists_content_of_openFile {store : Store} {uri : Text} {stream : Stream}
    (h : openFile store uri = .ok (some stream)) : ∃ content, store.look uri = .ok content := by
  unfold openFile at h
  split at h
  next bytes hlook => exact ⟨_, hlook⟩
  next hlook => exact ⟨_, hlook⟩
  next => split at h <;> cases h

/-- The strategy that looks on disk, with search roots. -/
def filesystem (roots : List Text) : Strategy where
  name := "filesystem".toList
  candidates parent := Candidate.all parent roots
  holdings := []
  openUri := openFile
  mem_holdings h := .inr (exists_content_of_openFile h)

end SheetImports.Strategy
