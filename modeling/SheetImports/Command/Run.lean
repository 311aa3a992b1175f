import SheetImports.Command.Args
import SheetImports.Follow
import SheetImports.Project
import SheetImports.Tree.Render

/-!
# The command

The command shows the import tree of each file that it is given. A file that is not there is looked
up like an import from the working directory; one that is there and cannot be read is an error. An
error in one file is reported and does not keep the others from being shown. Configurations are read
by the given reader of JSON.
-/

namespace SheetImports.Command

/-- What a run of the command leaves: its exit code, what it wrote, and what was reported. -/
structure Output where
  exit : Nat := 0
  stdout : Text := []
  stderr : Text := []
  events : List Event := []

/-- The name of the command, as it stands before its messages. -/
def messageStart : Text := "stylepath: ".toList

/-- The text that explains the command. -/
def help : Text :=
  ("stylepath — resolve and display stylesheet @import trees\n"
    ++ "Usage: stylepath [options] <file> [file2 ...]\n"
    ++ "\n"
    ++ "Each import is looked up next to the importing stylesheet first,\n"
    ++ "then in the searchPaths of the nearest stylepath.json, then in\n"
    ++ "the -I directories, in the order given.\n"
    ++ "\n"
    ++ "Options:\n"
    ++ "  -I DIR, --include-path DIR   Extra search root (repeatable)\n"
    ++ "  --depth N, -d N              Max import depth (default: unlimited)\n"
    ++ "  --no-follow                  Show direct imports only\n"
    ++ "  --candidates                 List every candidate location\n"
    ++ "  -h, --help                   Show help\n"
    ++ "\n"
    ++ "Set RUST_LOG=debug to trace each candidate.\n").toList

/-- How the imports of the files are followed. -/
def Invocation.options (invocation : Invocation) : FollowOptions where
  maxDepth := if invocation.noFollow then some 1 else invocation.depth
  showCandidates := invocation.showCandidates

/-- An entry stylesheet that was found, with the chain that its imports are looked up in. -/
structure Entry where
  uri : Text
  text : Text
  chain : Chain

/-- The entry stylesheet that an argument names, and what was reported: the file at that path, or
what an import of that name finds from the working directory. -/
def entry (readJson : JsonReader) (store : Store) (cwd : Text) (includePaths : List Text)
    (name : Text) : Except ImportError Entry × List Event :=
  match store.kind name with
  | .ok _ =>
    match store.canonical name with
    | .error cause => (.error (.io name cause), [])
    | .ok path =>
      let (chain, events) := projectChain store (Path.parent? path) includePaths readJson
      match store.read path with
      | .ok bytes => (.ok ⟨Path.toUri path, Utf8.decode bytes, chain⟩, events)
      | .error cause => (.error (.io name cause), events)
  | .error _ =>
    let (chain, events) := projectChain store (some cwd) includePaths readJson
    let lookup := chain.resolve store .anonymous name
    let found := match lookup.outcome with
      | .error error => .error error
      | .ok none => .error (.notFound name)
      | .ok (some source) =>
        match source.readText with
        | .error error => .error error
        | .ok text => .ok ⟨source.uri, text, chain⟩
    (found, events ++ lookup.events)

/-- The tree of one file as text, or why there is none, and what was reported. -/
def showFile (readJson : JsonReader) (store : Store) (cwd : Text) (invocation : Invocation)
    (name : Text) : Except ImportError Text × List Event :=
  match entry readJson store cwd invocation.includePaths name with
  | (.error error, events) => (.error error, events)
  | (.ok entry, events) =>
    let (tree, followed) := follow entry.chain store invocation.options entry.uri entry.text
    (.ok (tree.render cwd), events ++ followed)

/-- What one file adds to the output. -/
def Output.add (output : Output) : Except ImportError Text × List Event → Output
  | (.ok text, events) =>
    { output with stdout := output.stdout ++ text, events := output.events ++ events }
  | (.error error, events) =>
    { output with
      stderr := output.stderr ++ messageStart ++ error.message ++ ['\n']
      events := output.events ++ events }

/-- What stands between two files. -/
def separator : Text := "\n---\n\n".toList

/-- The output of the remaining files, after that of the first ones. -/
def showOthers (readJson : JsonReader) (store : Store) (cwd : Text) (invocation : Invocation)
    (output : Output) : List Text → Output
  | [] => output
  | name :: names =>
    let output := { output with stdout := output.stdout ++ separator }
    let shown := showFile readJson store cwd invocation name
    showOthers readJson store cwd invocation (output.add shown) names

/-- The output of the files in order. -/
def showFiles (readJson : JsonReader) (store : Store) (cwd : Text) (invocation : Invocation) :
    List Text → Output
  | [] => { exit := 1, stderr := messageStart ++ "no files specified\n".toList }
  | name :: names =>
    let shown := showFile readJson store cwd invocation name
    showOthers readJson store cwd invocation (Output.add {} shown) names

/-- A run of the command with the given arguments in the working directory `cwd`. -/
def run (store : Store) (cwd : Text) (arguments : List Text)
    (readJson : JsonReader := Json.parse) : Output :=
  let asksHelp := arguments.head?.all fun first => first = "-h".toList || first = "--help".toList
  if asksHelp then { stderr := help }
  else
    match parse arguments with
    | .error error => { exit := 1, stderr := messageStart ++ error.message ++ ['\n'] }
    | .ok invocation => showFiles readJson store cwd invocation invocation.files

end SheetImports.Command
