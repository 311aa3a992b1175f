import SheetImports.Candidate
import SheetImports.Event
import SheetImports.Json.Parser
import SheetImports.Path
import SheetImports.Store.Basic

/-!
# Configuration

A project lists search roots in a JSON file. The file that counts is the one in the nearest
directory, starting where a run starts and going up. If that file cannot be opened, is not UTF-8 or
is not JSON, the project has no configuration: a farther file does not take its place. A relative
entry is a path from the directory of the file.

What JSON is, is up to the reader that is passed along: it gives the value that a text holds, or
says what is wrong with the text.
-/

namespace SheetImports

/-- The configuration of a project. -/
structure Config where
  /-- The file that it was read from. -/
  path : Text
  /-- The search roots, in the order of the file. -/
  searchPaths : List Text
  deriving DecidableEq, Repr

namespace Config

/-- The name of a configuration file. -/
def fileName : Text := "stylepath.json".toList

/-- The name of the member that lists the search roots. -/
def searchPathsName : Text := "searchPaths".toList

/-- The directories in which a configuration is looked for: the start, if it is a directory, or its
parent, and those above. -/
def directories (store : Store) (start : Text) : List Text :=
  if store.isDirectory start then Path.selfAndParents start
  else (Path.parent? start).elim [] Path.selfAndParents

/-- The nearest configuration file, whether it can be opened or not. -/
def find? (store : Store) (start : Text) : Option Text :=
  ((directories store start).map (Path.join · fileName)).find? store.isFile

/-- The search root for an entry of a file in the given directory. -/
def rootOf (directory entry : Text) : Text :=
  if Uri.isRooted entry ∨ Uri.hasScheme entry then searchRoot entry
  else searchRoot ((Path.toUri directory).trimEnd (· == '/') ++ ['/'] ++ entry)

/-- The search roots that a value lists, and what is wrong with it. -/
def searchPathsOf (path directory : Text) (value : Json) : List Text × List Event :=
  match value.member? searchPathsName with
  | none => ([], [])
  | some (.array entries) =>
    (entries.filterMap (·.text?.map (rootOf directory)),
      entries.filterMap fun entry =>
        if entry.text?.isSome then none else some (.ignoredSearchPath path entry))
  | some value => ([], [.ignoredSearchPaths path value])

/-- The configuration that holds for a run from `start`, if there is one, and what is wrong with
it. -/
def load (store : Store) (start : Text) (readJson : JsonReader := Json.parse) :
    Option Config × List Event :=
  match find? store start with
  | none => (none, [])
  | some path =>
    match store.readUtf8 path with
    | .error cause => (none, [.unreadableConfig path cause])
    | .ok text =>
      match readJson text, Path.parent? path with
      | .error problem, _ => (none, [.malformedConfig path problem])
      | .ok _, none => (none, [])
      | .ok value, some directory =>
        let (searchPaths, events) := searchPathsOf path directory value
        (some ⟨path, searchPaths⟩, events)

end Config

end SheetImports
