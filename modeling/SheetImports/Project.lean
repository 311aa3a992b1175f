import SheetImports.Config
import SheetImports.Strategy.Filesystem
import SheetImports.Chain

/-!
# Projects

Inside a project an import is looked up on disk: next to its stylesheet first, then under the search
roots of the project's configuration, then under the include paths of the command line.
-/

namespace SheetImports

/-- The search roots of a run from `start` with include paths, and what was reported. -/
def projectRoots (store : Store) (start : Option Text) (includePaths : List Text)
    (readJson : JsonReader := Json.parse) : List Text × List Event :=
  let given := includePaths.map searchRoot
  match start.map (Config.load store · readJson) with
  | none => (given, [])
  | some (none, events) => (given, events)
  | some (some config, events) =>
    (config.searchPaths ++ given, events ++ [.usingConfig config.path])

/-- The chain of a run from `start` with include paths, and what was reported. -/
def projectChain (store : Store) (start : Option Text) (includePaths : List Text)
    (readJson : JsonReader := Json.parse) : Chain × List Event :=
  let (roots, events) := projectRoots store start includePaths readJson
  ([Strategy.filesystem roots], events)

end SheetImports
