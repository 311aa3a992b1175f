import SheetImports.Error
import SheetImports.Text.Utf8

/-!
# Stores

A store is what the file system answers when it is asked for a path: what kind of place the path
leads to, what is opened there, and the one path of that place which is free of links. Each of these
may fail where another succeeds: a file that may not be opened is a file, a path can be too long to
be opened and yet lead somewhere, and a place can be opened whose own path is too long.

What identifies the stylesheet at a uri is its key: the path of its place free of links, or the uri
itself if there is none. The uris at which something is found have finitely many keys, however many
of them lead to one place (`Store.bounded`).
-/

namespace SheetImports

/-- What a place is, as far as that is known without opening it. -/
inductive Kind where
  | file
  | directory
  /-- A device, a pipe and the like. -/
  | other
  deriving DecidableEq, Repr

/-- What is opened at a place. -/
inductive Content where
  | file (bytes : Bytes)
  | directory
  deriving DecidableEq, Repr

/-- What a place is at which something was opened. -/
def Content.kind : Content → Kind
  | file _ => .file
  | directory => .directory

/-- A file system as it answers when asked for paths. -/
structure Store where
  /-- What a path leads to. -/
  kind : Text → Except Cause Kind
  /-- What is found at a path when it is opened. -/
  look : Text → Except Cause Content
  /-- The path free of links of the place at a path. -/
  canonical : Text → Except Cause Text
  /-- At least as many as the keys of the uris at which something is found. -/
  keyBound : Nat
  /-- Those keys are no more than that. -/
  bounded : ∃ keys : List Text, keys.length ≤ keyBound ∧
    ∀ {path : Text} {content : Content},
      look path = .ok content → (canonical path).toOption.getD path ∈ keys

namespace Store

/-- Whether the path leads to a file. The file need not be one that can be opened. -/
def isFile (store : Store) (path : Text) : Bool :=
  match store.kind path with
  | .ok .file => true
  | _ => false

/-- Whether the path leads to a directory. -/
def isDirectory (store : Store) (path : Text) : Bool :=
  match store.kind path with
  | .ok .directory => true
  | _ => false

/-- The octets of the file at a path. -/
def read (store : Store) (path : Text) : Except Cause Bytes :=
  match store.look path with
  | .ok (.file bytes) => .ok bytes
  | .ok .directory => .error .isDirectory
  | .error cause => .error cause

/-- The text of the file at a path, which must be UTF-8. -/
def readUtf8 (store : Store) (path : Text) : Except Cause Text :=
  match store.read path with
  | .error cause => .error cause
  | .ok bytes => (Utf8.decode? bytes).elim (.error .notUtf8) .ok

/-- What identifies the stylesheet at a uri: the path free of links of its place if there is one,
else the uri itself. -/
def key (store : Store) (uri : Text) : Text := (store.canonical uri).toOption.getD uri

/-- The store in which nothing is found. -/
def empty : Store where
  kind _ := .error .absent
  look _ := .error .absent
  canonical _ := .error .absent
  keyBound := 0
  bounded := ⟨[], Nat.le_refl 0, fun h => nomatch h⟩

theorem key_of_canonical {store : Store} {uri path : Text} (h : store.canonical uri = .ok path) :
    store.key uri = path := by
  simp [key, h, Except.toOption]

end Store

end SheetImports
