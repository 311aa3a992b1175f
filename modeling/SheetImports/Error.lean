import SheetImports.Text.Basic

/-!
# Errors

What keeps a file or a stylesheet from being opened or read. Every error is a cause together with
what it happened to; the wording stands in `Cause.message` and `ImportError.message` alone.
-/

namespace SheetImports

/-- What a place or a stream has against being opened or read. -/
inductive Cause where
  /-- There is nothing at the place. -/
  | absent
  /-- The way to the place leads through something that is no directory. -/
  | notDirectory
  /-- A directory was to be read as a file. -/
  | isDirectory
  /-- The way to the place follows more symbolic links than are allowed. -/
  | tooManyLinks
  /-- The path or one of its names is too long. -/
  | nameTooLong
  /-- The path holds the character NUL. -/
  | nulInPath
  /-- The place may not be opened. -/
  | denied
  /-- A file was to be read as text and is not UTF-8. -/
  | notUtf8
  /-- Anything else, in the words of whoever reports it. -/
  | other (message : Text)
  deriving DecidableEq, Repr

namespace Cause

/-- The wording of a cause. -/
def message : Cause → Text
  | absent => "No such file or directory (os error 2)".toList
  | notDirectory => "Not a directory (os error 20)".toList
  | isDirectory => "Is a directory (os error 21)".toList
  | tooManyLinks => "Too many levels of symbolic links (os error 40)".toList
  | nameTooLong => "File name too long (os error 36)".toList
  | nulInPath => "file name contained an unexpected NUL byte".toList
  | denied => "Permission denied (os error 13)".toList
  | notUtf8 => "stream did not contain valid UTF-8".toList
  | other message => message

/-- Whether the cause says only that nothing is there. -/
def isMissing : Cause → Bool
  | absent | notDirectory => true
  | _ => false

end Cause

/-- Why an import fails. -/
inductive ImportError where
  /-- A file or a stream could not be read. -/
  | io (path : Text) (cause : Cause)
  /-- A candidate that is there, or may be, could not be opened. -/
  | cannotOpen (uri : Text) (cause : Cause)
  /-- No stylesheet has the name. -/
  | notFound (name : Text)
  deriving DecidableEq, Repr

/-- The wording of an error. -/
def ImportError.message : ImportError → Text
  | io path cause => path ++ ": ".toList ++ cause.message
  | cannotOpen uri cause => "cannot open ".toList ++ uri ++ ": ".toList ++ cause.message
  | notFound name => "no stylesheet found for ".toList ++ name

end SheetImports
