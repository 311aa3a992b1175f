import SheetImports.Store.Basic

/-!
# Snapshots

A snapshot is what a file system answered for finitely many paths. Every other path counts as one
where nothing is.
-/

namespace SheetImports

/-- What a file system answers for a path. -/
structure Answer where
  /-- What it leads to. -/
  kind : Except Cause Kind
  /-- What is found there when it is opened. -/
  content : Except Cause Content
  /-- The path free of links. -/
  canonical : Except Cause Text

/-- The answer for a file or a directory that can be opened, given its path free of links. -/
def Answer.opened (content : Content) (path : Text) : Answer :=
  ⟨.ok content.kind, .ok content, .ok path⟩

/-- Answers of a file system, by path. -/
structure Snapshot where
  answers : List (Text × Answer) := []

namespace Snapshot

/-- The answer for a path at which nothing is. -/
def nothing : Answer := ⟨.error .absent, .error .absent, .error .absent⟩

/-- The answer for a path. -/
def answer (snapshot : Snapshot) (path : Text) : Answer :=
  (snapshot.answers.lookup path).getD nothing

/-- Whether the path was asked for. -/
def knows (snapshot : Snapshot) (path : Text) : Bool := (snapshot.answers.lookup path).isSome

/-- The snapshot with one more answer. -/
def add (snapshot : Snapshot) (path : Text) (answer : Answer) : Snapshot :=
  ⟨(path, answer) :: snapshot.answers⟩

/-- There are no more keys than answers. -/
theorem exists_keys (snapshot : Snapshot) :
    ∃ keys : List Text, keys.length ≤ snapshot.answers.length ∧
      ∀ {path : Text} {content : Content}, (snapshot.answer path).content = .ok content →
        (snapshot.answer path).canonical.toOption.getD path ∈ keys := by
  refine ⟨snapshot.answers.map fun (path, answer) => answer.canonical.toOption.getD path,
    Nat.le_of_eq (List.length_map _), fun {path} {content} h => ?_⟩
  unfold answer at h ⊢
  cases hlookup : snapshot.answers.lookup path with
  | none => simp [hlookup, nothing] at h
  | some answer =>
    obtain ⟨before, after, hanswers, -⟩ := List.lookup_eq_some_iff.1 hlookup
    simp [hanswers]

/-- A snapshot as a store. -/
def toStore (snapshot : Snapshot) : Store where
  kind path := (snapshot.answer path).kind
  look path := (snapshot.answer path).content
  canonical path := (snapshot.answer path).canonical
  keyBound := snapshot.answers.length
  bounded := snapshot.exists_keys

end Snapshot

end SheetImports
