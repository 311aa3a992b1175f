import Mathlib.Data.List.Chain
import SheetImports.Stylesheet.Directive

/-!
# A grammar of stylesheets

A document is a list of items: fillers, comments, string literals and import statements. Every part
of it has a `text`, which is how it is written, and a `blanked` text, which is what should be left
when comments are blanked out. `Document.directives` says which imports the document makes, read off
its items and not off its text: one for each target, with the line on which the target opens.

A list of items is a document if what is written is what was meant (`WellFormed`): two fillers in a
row are one, only the end of the text ends a statement without a mark, and no comma that follows a
statement goes on with its targets.
-/

namespace SheetImports.Grammar

/-! ## Characters -/

/-- What opens and closes a string literal. -/
inductive Quote where
  | single
  | double
  deriving DecidableEq, Repr

def Quote.char : Quote → Char
  | single => '\''
  | double => '"'

def quotes : List Char := ['"', '\'']

/-- ASCII white space. -/
def spaces : List Char := [' ', '\t', '\n', '\x0c', '\r']

/-- The marks that end an import statement: `;`, braces and the line feed. -/
def marks : List Char := [';', '\x7b', '\x7d', '\n']

def urlOpening : Text := "url(".toList

def importKeyword : Text := "import".toList

/-- The number of line feeds. -/
def lineFeeds (text : Text) : Nat := text.count '\n'

/-! ## Runs, comments and literals -/

/-- A text without quotes, slashes and `url(` in any letter case. -/
structure Run where
  text : Text
  plain : ∀ c ∈ text, c ∉ quotes ∧ c ≠ '/'
  noUrl : ¬ urlOpening <:+: text.map Char.toLower

inductive Comment where
  | line (body : Text) (oneLine : '\n' ∉ body)
  | block (body : Text) (open_ : ¬ "*/".toList <:+: body)

namespace Comment

/-- A line comment is written with its line feed. -/
def text : Comment → Text
  | line body _ => '/' :: '/' :: (body ++ ['\n'])
  | block body _ => '/' :: '*' :: (body ++ ['*', '/'])

def blanked : Comment → Text
  | line _ _ => ['\n']
  | block body _ => body.filter (· == '\n') ++ [' ']

end Comment

/-- The texts that may stand between two quotes: a backslash takes any character along, and without
one neither the quote nor a line feed may stand there. -/
inductive Enclosed (quote : Quote) : Text → Prop
  | nil : Enclosed quote []
  | plain {c : Char} {text : Text} (hquote : c ≠ quote.char) (hslash : c ≠ '\\') (hline : c ≠ '\n')
      (h : Enclosed quote text) : Enclosed quote (c :: text)
  | escaped {c : Char} {text : Text} (h : Enclosed quote text) : Enclosed quote ('\\' :: c :: text)

structure Literal where
  quote : Quote
  body : Text
  enclosed : Enclosed quote body

def Literal.text (literal : Literal) : Text :=
  literal.quote.char :: (literal.body ++ [literal.quote.char])

/-! ## Gaps and targets -/

inductive GapPart where
  | space (c : Char) (h : c ∈ spaces)
  | comment (comment : Comment)

namespace GapPart

def text : GapPart → Text
  | space c _ => [c]
  | comment c => c.text

def blanked : GapPart → Text
  | space c _ => [c]
  | comment c => c.blanked

end GapPart

/-- White space and comments, which may stand between the words of a statement. -/
abbrev Gap := List GapPart

def Gap.text (gap : Gap) : Text := gap.flatMap GapPart.text

def Gap.blanked (gap : Gap) : Text := gap.flatMap GapPart.blanked

/-- What an import statement names. -/
inductive Target where
  /-- A name between quotes. -/
  | quoted (quote : Quote) (name : Text) (nonempty : name ≠ [])
      (plain : ∀ c ∈ name, c ∉ quotes ∧ c ≠ '\\' ∧ c ≠ '\n')
  /-- A name in a url. -/
  | url (opening before name after : Text) (nonempty : name ≠ [])
      (isOpening : opening.map Char.toLower = urlOpening)
      (blank : ∀ c ∈ before ++ after, Text.isBlank c = true)
      (plain : ∀ c ∈ name, c ∉ quotes ∧ c ≠ ')')
      (trimmed : ∀ c, name.head? = some c ∨ name.getLast? = some c → Text.isBlank c = false)
  /-- A name between quotes in a url. -/
  | quotedUrl (opening before : Text) (quote : Quote) (name after : Text) (nonempty : name ≠ [])
      (isOpening : opening.map Char.toLower = urlOpening)
      (blank : ∀ c ∈ before ++ after, Text.isBlank c = true)
      (plain : ∀ c ∈ name, c ∉ quotes ∧ c ≠ ')')

namespace Target

def name : Target → Text
  | quoted _ name _ _ => name
  | url _ _ name _ _ _ _ _ _ => name
  | quotedUrl _ _ _ name _ _ _ _ _ => name

def isUrl : Target → Bool
  | quoted .. => false
  | url .. => true
  | quotedUrl .. => true

def text : Target → Text
  | quoted quote name _ _ => quote.char :: (name ++ [quote.char])
  | url opening before name after _ _ _ _ _ => opening ++ (before ++ name ++ after ++ [')'])
  | quotedUrl opening before quote name after _ _ _ _ =>
    opening ++ (before ++ (quote.char :: (name ++ [quote.char])) ++ after ++ [')'])

end Target

/-- One more target of a list, with its comma. -/
structure Entry where
  before : Gap
  after : Gap
  target : Target

def Entry.text (entry : Entry) : Text :=
  entry.before.text ++ ',' :: (entry.after.text ++ entry.target.text)

def Entry.blanked (entry : Entry) : Text :=
  entry.before.blanked ++ ',' :: (entry.after.blanked ++ entry.target.text)

/-! ## Media texts -/

inductive MediaPart where
  | run (run : Run)
  | literal (literal : Literal)
  | comment (comment : Comment)
  /-- A url value with anything but a closing parenthesis in it. -/
  | url (opening body : Text) (isOpening : opening.map Char.toLower = urlOpening) (h : ')' ∉ body)

namespace MediaPart

def isRun : MediaPart → Bool
  | run _ => true
  | _ => false

def text : MediaPart → Text
  | run r => r.text
  | literal l => l.text
  | comment c => c.text
  | url opening body _ _ => opening ++ (body ++ [')'])

def blanked : MediaPart → Text
  | comment c => c.blanked
  | part => part.text

end MediaPart

/-- What may stand between the targets of a statement and its end. Comments apart it holds no mark
that ends the statement, it does not begin with a comma, and something of it can be seen. -/
structure Media where
  parts : List MediaPart
  apart : parts.IsChain fun part next => ¬ (part.isRun = true ∧ next.isRun = true)
  noMark : ∀ c ∈ parts.flatMap MediaPart.blanked, c ∉ marks
  noComma : ((parts.flatMap MediaPart.blanked).dropWhile (· ∈ spaces)).head? ≠ some ','
  visible : ∃ c ∈ parts.flatMap MediaPart.blanked, Text.isBlank c = false

def Media.text (media : Media) : Text := media.parts.flatMap MediaPart.text

def Media.blanked (media : Media) : Text := media.parts.flatMap MediaPart.blanked

/-! ## Statements -/

/-- How a statement ends. -/
inductive Ending where
  | mark (c : Char) (h : c ∈ marks)
  | lineComment (body : Text) (oneLine : '\n' ∉ body)
  | endOfText

namespace Ending

def text : Ending → Text
  | mark c _ => [c]
  | lineComment body h => (Comment.line body h).text
  | endOfText => []

def blanked : Ending → Text
  | mark c _ => [c]
  | lineComment body h => (Comment.line body h).blanked
  | endOfText => []

end Ending

structure Import where
  keyword : Text
  isKeyword : keyword.map Char.toLower = importKeyword
  gap : Gap
  first : Target
  gap_ne_nil : first.isUrl = true → gap ≠ []
  others : List Entry
  tail : Gap
  oneLine : '\n' ∉ tail.blanked
  media : Option Media
  ending : Ending

namespace Import

def text (statement : Import) : Text :=
  '@' :: statement.keyword ++ statement.gap.text ++ statement.first.text
    ++ statement.others.flatMap Entry.text ++ statement.tail.text
    ++ statement.media.elim [] Media.text ++ statement.ending.text

def blanked (statement : Import) : Text :=
  '@' :: statement.keyword ++ statement.gap.blanked ++ statement.first.text
    ++ statement.others.flatMap Entry.blanked ++ statement.tail.blanked
    ++ statement.media.elim [] Media.blanked ++ statement.ending.blanked

/-- A target that is left to the browser. -/
def IsPlain (statement : Import) (target : Target) : Prop :=
  target.isUrl = true ∨ statement.media.isSome = true ∨ ".css".toList <:+ target.name
    ∨ "http://".toList <+: target.name ∨ "https://".toList <+: target.name
    ∨ "//".toList <+: target.name

instance (statement : Import) (target : Target) : Decidable (statement.IsPlain target) :=
  inferInstanceAs (Decidable (_ ∨ _))

def directive (statement : Import) (line : Nat) (target : Target) : Directive :=
  ⟨target.name, line, if statement.IsPlain target then .plainCss else .stylesheet⟩

/-- The directives of entries that begin on a given line. -/
def entryDirectives (statement : Import) (line : Nat) : List Entry → List Directive
  | [] => []
  | entry :: entries =>
    let opens := line + lineFeeds entry.before.text + lineFeeds entry.after.text
    statement.directive opens entry.target
      :: statement.entryDirectives (opens + lineFeeds entry.target.text) entries

/-- The directives of a statement that begins on a given line. -/
def directives (statement : Import) (line : Nat) : List Directive :=
  let opens := line + lineFeeds statement.gap.text
  statement.directive opens statement.first
    :: statement.entryDirectives (opens + lineFeeds statement.first.text) statement.others

end Import

/-! ## Documents -/

inductive Item where
  | filler (run : Run) (h : '@' ∉ run.text)
  | comment (comment : Comment)
  | literal (literal : Literal)
  | statement (statement : Import)

namespace Item

def isFiller : Item → Bool
  | filler .. => true
  | _ => false

def text : Item → Text
  | filler run _ => run.text
  | comment c => c.text
  | literal l => l.text
  | statement s => s.text

def blanked : Item → Text
  | comment c => c.blanked
  | statement s => s.blanked
  | item => item.text

def directives (line : Nat) : Item → List Directive
  | statement s => s.directives line
  | _ => []

/-- The items may follow the item. -/
def Precedes (items : List Item) : Item → Prop
  | filler .. => ∀ item ∈ items.head?, item.isFiller = false
  | statement s =>
    (s.ending = .endOfText → items = []) ∧
      (s.media = none →
        ((s.ending.blanked ++ items.flatMap blanked).dropWhile (· ∈ spaces)).head? ≠ some ',')
  | _ => True

end Item

/-- Every item may be followed by those after it. -/
def WellFormed : List Item → Prop
  | [] => True
  | item :: items => item.Precedes items ∧ WellFormed items

/-- The directives of items that begin on a given line. -/
def itemDirectives (line : Nat) : List Item → List Directive
  | [] => []
  | item :: items => item.directives line ++ itemDirectives (line + lineFeeds item.text) items

structure Document where
  items : List Item
  wellFormed : WellFormed items

namespace Document

def text (document : Document) : Text := document.items.flatMap Item.text

/-- The imports that a document makes, in order. -/
def directives (document : Document) : List Directive := itemDirectives 1 document.items

end Document

end SheetImports.Grammar
