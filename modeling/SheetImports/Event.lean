import SheetImports.Error
import SheetImports.Json.Printer

/-!
# Events

What a run reports while it works: which candidates are tried, what is found, and what is wrong with
a configuration file. An event is a value; its level and its wording stand here alone.
-/

namespace SheetImports

/-- How much an event matters. -/
inductive Level where
  | warn
  | debug
  deriving DecidableEq, Repr

/-- Something worth reporting. -/
inductive Event where
  /-- A strategy tries a uri. -/
  | probing (strategy uri : Text)
  /-- A strategy has opened a uri for an identifier. -/
  | resolved (strategy identifier uri : Text)
  /-- The lookup of a target failed. -/
  | lookupFailed (target : Text) (error : ImportError)
  /-- An opened stylesheet could not be read. -/
  | readFailed (error : ImportError)
  /-- A configuration file takes part. -/
  | usingConfig (path : Text)
  /-- A configuration file could not be read as text. -/
  | unreadableConfig (path : Text) (cause : Cause)
  /-- A configuration file is not JSON; what its reader says of that, if anything. -/
  | malformedConfig (path problem : Text)
  /-- An entry of the search paths is no string. -/
  | ignoredSearchPath (path : Text) (entry : Json)
  /-- The search paths are no array. -/
  | ignoredSearchPaths (path : Text) (value : Json)

namespace Event

/-- The level of an event: what is wrong with a configuration is a warning. -/
def level : Event → Level
  | unreadableConfig _ _ | malformedConfig _ _ | ignoredSearchPath _ _ | ignoredSearchPaths _ _ =>
    .warn
  | _ => .debug

/-- The wording of an event. -/
def message : Event → Text
  | probing strategy uri => strategy ++ ": probing ".toList ++ uri
  | resolved strategy identifier uri =>
    strategy ++ ": resolved ".toList ++ identifier ++ " to ".toList ++ uri
  | lookupFailed target error => target ++ ": ".toList ++ error.message
  | readFailed error => error.message
  | usingConfig path => "using ".toList ++ path
  | unreadableConfig path cause => "cannot read ".toList ++ path ++ ": ".toList ++ cause.message
  | malformedConfig path problem =>
    "failed to parse ".toList ++ path ++ if problem = [] then [] else ": ".toList ++ problem
  | ignoredSearchPath path entry =>
    path ++ ": ignoring non-string search path ".toList ++ entry.print
  | ignoredSearchPaths path value =>
    path ++ ": searchPaths must be an array, got ".toList ++ value.print

end Event

end SheetImports
