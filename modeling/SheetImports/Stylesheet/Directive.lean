import SheetImports.Stylesheet.Statement

/-!
# Import directives

`imports` reads the import statements of a stylesheet: one directive for every target that is not
empty, in the order of the text, each with the line on which its target opens. A directive is a
stylesheet to be looked up and inlined, unless its form leaves it to the browser: a url, a statement
with a media query, a `.css` file or an address on the network.
-/

namespace SheetImports

/-- Who follows an import. -/
inductive ImportKind where
  /-- The stylesheet is looked up and inlined. -/
  | stylesheet
  /-- The import stays in the output, and the browser follows it. -/
  | plainCss
  deriving DecidableEq, Repr

/-- One target of an import statement, with the line on which it opens, counted from 1. -/
structure Directive where
  target : Text
  line : Nat
  kind : ImportKind
  deriving DecidableEq, Repr

namespace Stylesheet

/-- The text of a stretch. -/
def Stretch.text (stretch : Stretch) : Text := Utf8.decode stretch.octets

/-- The text of a target, without quotes around it and, in a url, without blanks around those. -/
def Target.text (target : Target) : Text :=
  unquote (if target.isUrl then Text.trimBlank target.value.text else target.value.text)

/-- Whether something that is not blank stands after the targets. -/
def Statement.hasMedia (statement : Statement) : Bool :=
  statement.media.text.any (!Text.isBlank ·)

/-- The line of the octet at a position, counted from 1. -/
def lineAt (bytes : Bytes) (position : Nat) : Nat := newlines (bytes.take position) + 1

/-- A target that names no stylesheet of the language, whatever stands around it. -/
def namesCss (target : Text) : Bool :=
  ".css".toList.isSuffixOf target || "http://".toList.isPrefixOf target
    || "https://".toList.isPrefixOf target || "//".toList.isPrefixOf target

/-- The kind of the directive for a target of a statement. -/
def kindOf (statement : Statement) (target : Target) : ImportKind :=
  if target.isUrl || statement.hasMedia || namesCss target.text then .plainCss else .stylesheet

/-- The directive for a target of a statement; an empty target has none. -/
def directive? (bytes : Bytes) (statement : Statement) (target : Target) : Option Directive :=
  if target.text = [] then none
  else some ⟨target.text, lineAt bytes target.mark, kindOf statement target⟩

/-- The directives of a statement. -/
def Statement.directives (bytes : Bytes) (statement : Statement) : List Directive :=
  statement.targets.filterMap (directive? bytes statement)

/-- The directives of a text without comments. -/
def directives (bytes : Bytes) : List Directive :=
  (statements bytes.length bytes).flatMap (·.directives bytes)

/-- The import directives of a stylesheet, in the order of its text. -/
def imports (text : Text) : List Directive := directives (blank (Utf8.encode text))

end Stylesheet

end SheetImports
