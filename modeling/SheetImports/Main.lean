import SheetImports.Command.Run
import SheetImports.Store.Snapshot

/-!
# The program

The command runs on a snapshot of the file system. A run reports every uri that it tries, so the
program asks the file system for those that the snapshot does not know and runs again, until nothing
new is tried.
-/

open SheetImports

/-- The number of a system error, which is reported with either sign. -/
def errorNumber (code : UInt32) : UInt32 := if code < 0x80000000 then code else 0 - code

/-- The cause of a system error. -/
def causeOf : IO.Error → Cause
  | .noFileOrDirectory _ _ _ => .absent
  | .permissionDenied _ code details =>
    if errorNumber code = 13 then .denied else .other details.toList
  | .inappropriateType _ code _ => if errorNumber code = 21 then .isDirectory else .notDirectory
  | .invalidArgument _ code details =>
    if errorNumber code = 40 then .tooManyLinks
    else if errorNumber code = 36 then .nameTooLong
    else .other details.toList
  | error => .other error.toString.toList

/-- What a place of the given type is. -/
def kindOf : IO.FS.FileType → Kind
  | .file => .file
  | .dir => .directory
  | _ => .other

/-- What the file system has at a path. -/
def ask (path : Text) : IO Answer := do
  if '\x00' ∈ path then
    return ⟨.error .nulInPath, .error .nulInPath, .error .nulInPath⟩
  let answer place : IO Answer := do
    let bytes ← (IO.FS.readBinFile place).toBaseIO
    let canonical ← (IO.FS.realPath place).toBaseIO
    let metadata ← place.metadata.toBaseIO
    return {
      kind := metadata.map (kindOf ·.type) |>.mapError causeOf
      content := match bytes.mapError causeOf with
        | .ok bytes => .ok (.file bytes.toList)
        | .error .isDirectory => .ok .directory
        | .error cause => .error cause
      canonical := canonical.map (·.toString.toList) |>.mapError causeOf }
  answer (String.ofList path)

/-- The snapshot with the answers for the given paths. -/
def askAll (snapshot : Snapshot) (paths : List Text) : IO Snapshot :=
  paths.foldlM (fun snapshot path => do
    if snapshot.knows path then return snapshot
    return snapshot.add path (← ask path)) snapshot

/-- The paths that are looked at for a configuration that holds in a directory. -/
def configPaths (directory : Text) : List Text :=
  directory :: (Path.selfAndParents directory).map (Path.join · Config.fileName)

/-- The snapshot with which the first run starts. -/
def firstSnapshot (cwd : Text) (names : List Text) : IO Snapshot := do
  let snapshot ← askAll {} (names ++ configPaths cwd)
  askAll snapshot <| names.flatMap fun name =>
    match (snapshot.answer name).canonical with
    | .ok path => path :: (Path.parent? path).elim [] configPaths
    | .error _ => []

/-- The output of the command once nothing new is tried. -/
partial def settle (cwd : Text) (arguments : List Text) (snapshot : Snapshot) :
    IO Command.Output := do
  let output := Command.run snapshot.toStore cwd arguments Json.parse
  let tried := output.events.filterMap fun | .probing _ uri => some uri | _ => none
  if tried.all snapshot.knows then return output
  settle cwd arguments (← askAll snapshot tried)

/-- The least level of the events that are shown: warnings, unless the environment asks for more or
less. -/
def isShown (setting : Option String) (event : Event) : Bool :=
  match setting, event.level with
  | some "off", _ | some "error", _ => false
  | some "debug", _ | some "trace", _ => true
  | _, .warn => true
  | _, .debug => false

/-- The program: it shows the events and the output of the run, and ends with its exit code. -/
def main (arguments : List String) : IO UInt32 := do
  let cwd := (← IO.currentDir).toString.toList
  let arguments := arguments.map String.toList
  let names := match Command.parse arguments with
    | .ok invocation => invocation.files
    | .error _ => []
  let output ← settle cwd arguments (← firstSnapshot cwd names)
  let setting ← IO.getEnv "RUST_LOG"
  for event in output.events do
    if isShown setting event then
      let level := match event.level with
        | .warn => "[WARN] "
        | .debug => "[DEBUG] "
      IO.eprintln (level ++ String.ofList event.message)
  IO.eprint (String.ofList output.stderr)
  IO.print (String.ofList output.stdout)
  return output.exit.toUInt32
