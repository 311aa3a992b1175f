import SheetImports.Text.Basic

/-!
# The command line

The arguments of the command are a sequence of items: options, some with a value in the same
argument or in the next one, and files. A value may be any argument, even one that looks like an
option. The last depth counts.
-/

namespace SheetImports.Command

/-- What an argument, or two of them, ask for. -/
inductive Item where
  | noFollow
  | showCandidates
  | includePath (directory : Text)
  | depth (levels : Nat)
  | file (name : Text)
  deriving DecidableEq, Repr

/-- What is wrong with the arguments. -/
inductive UsageError where
  | includePathMissing
  | depthMissing
  | depthInvalid (argument : Text)
  | depthZero
  | unknownOption (argument : Text)
  | depthWithoutFollowing
  deriving DecidableEq, Repr

/-- The wording of a usage error. -/
def UsageError.message : UsageError → Text
  | includePathMissing => "--include-path requires a directory argument".toList
  | depthMissing => "--depth requires a number argument".toList
  | depthInvalid argument => "--depth: invalid number '".toList ++ argument ++ ['\'']
  | depthZero => "--depth must be at least 1".toList
  | unknownOption argument => "unknown option: ".toList ++ argument
  | depthWithoutFollowing => "--no-follow and --depth are mutually exclusive".toList

/-- What the arguments ask for. -/
structure Invocation where
  includePaths : List Text
  depth : Option Nat
  noFollow : Bool
  showCandidates : Bool
  files : List Text
  deriving DecidableEq, Repr

/-! ## Numbers -/

/-- The largest number that is accepted. -/
def maxNumber : Nat := UInt64.size - 1

/-- The number that an argument writes: digits, after a plus sign or not, and not too large. -/
def number? (argument : Text) : Option Nat :=
  let digits := (['+'].isPrefixOf? argument).getD argument
  if digits ≠ [] ∧ digits.all Text.isDigit ∧ Text.natValue digits ≤ maxNumber then
    some (Text.natValue digits)
  else none

/-- The depth that an argument gives. -/
def depth? (argument : Text) : Except UsageError Nat :=
  match number? argument with
  | none => .error (.depthInvalid argument)
  | some 0 => .error .depthZero
  | some (n + 1) => .ok (n + 1)

/-! ## Reading -/

/-- The items of the arguments, up to the first that is none. -/
def items : List Text → Except UsageError (List Item)
  | [] => .ok []
  | argument :: arguments =>
    if argument = "--no-follow".toList then (items arguments).map (.noFollow :: ·)
    else if argument = "--candidates".toList then (items arguments).map (.showCandidates :: ·)
    else if argument = "--include-path".toList ∨ argument = "-I".toList then
      match arguments with
      | [] => .error .includePathMissing
      | directory :: arguments => (items arguments).map (.includePath directory :: ·)
    else if argument = "--depth".toList ∨ argument = "-d".toList then
      match arguments with
      | [] => .error .depthMissing
      | number :: arguments =>
        match depth? number with
        | .error error => .error error
        | .ok levels => (items arguments).map (.depth levels :: ·)
    else
      match "-I".toList.isPrefixOf? argument with
      | some directory => (items arguments).map (.includePath directory :: ·)
      | none =>
        if argument.head? = some '-' then .error (.unknownOption argument)
        else (items arguments).map (.file argument :: ·)

/-- What a sequence of items asks for. -/
def Invocation.ofItems (items : List Item) : Invocation where
  includePaths := items.filterMap fun | .includePath directory => some directory | _ => none
  depth := (items.filterMap fun | .depth levels => some levels | _ => none).getLast?
  noFollow := items.contains .noFollow
  showCandidates := items.contains .showCandidates
  files := items.filterMap fun | .file name => some name | _ => none

/-- What the arguments ask for, if they are well-formed. -/
def parse (arguments : List Text) : Except UsageError Invocation :=
  match items arguments with
  | .error error => .error error
  | .ok items =>
    let invocation := Invocation.ofItems items
    if invocation.noFollow ∧ invocation.depth.isSome then .error .depthWithoutFollowing
    else .ok invocation

end SheetImports.Command
