import SheetImports.Json.Token

/-!
# Reading JSON

`parse?` reads a text that holds one JSON value and nothing else. It goes through the tokens once,
with a stack of the arrays and objects that are still open; they may be nested up to
`maxDepth` deep.
-/

namespace SheetImports.Json

/-- The deepest nesting of arrays and objects. -/
def maxDepth : Nat := 127

/-- An array or object that is still open. -/
inductive Frame where
  /-- The elements so far, the last one first. -/
  | array (elements : List Json)
  /-- The members so far, and the name of the one that is being read. -/
  | object (members : List (Text × Json)) (name : Text)

/-- What may come next. -/
inductive Expected where
  | value
  /-- A value, or the end of an array that is still empty. -/
  | valueOrEnd
  /-- The name of a member of an object with the members so far. -/
  | name (members : List (Text × Json))
  /-- A name, or the end of an object that is still empty. -/
  | nameOrEnd
  /-- The colon after a name. -/
  | colon (members : List (Text × Json)) (name : Text)
  /-- What follows a value that is complete. -/
  | separator (value : Json)

/-- A reader between two tokens: the open arrays and objects, innermost first, and what may come
next. -/
structure Reader where
  frames : List Frame
  expected : Expected

/-- The reader after the first token of a value. -/
def Reader.begin? (frames : List Frame) : Token → Option Reader
  | .scalar value => some ⟨frames, .separator value⟩
  | .string text => some ⟨frames, .separator (.string text)⟩
  | .openArray =>
    if frames.length < maxDepth then some ⟨.array [] :: frames, .valueOrEnd⟩ else none
  | .openObject =>
    if frames.length < maxDepth then some ⟨.object [] [] :: frames, .nameOrEnd⟩ else none
  | _ => none

/-- The reader after one more token, if the token may come there. -/
def Reader.step? (reader : Reader) (token : Token) : Option Reader :=
  match reader.expected, token, reader.frames with
  | .value, token, frames => Reader.begin? frames token
  | .valueOrEnd, .closeArray, .array elements :: frames =>
    some ⟨frames, .separator (.array elements.reverse)⟩
  | .valueOrEnd, token, frames => Reader.begin? frames token
  | .nameOrEnd, .closeObject, .object members _ :: frames =>
    some ⟨frames, .separator (.object members)⟩
  | .nameOrEnd, .string name, .object members _ :: frames =>
    some ⟨frames, .colon members name⟩
  | .name members, .string name, frames => some ⟨frames, .colon members name⟩
  | .colon members name, .colon, frames => some ⟨.object members name :: frames, .value⟩
  | .separator value, .comma, .array elements :: frames =>
    some ⟨.array (value :: elements) :: frames, .value⟩
  | .separator value, .closeArray, .array elements :: frames =>
    some ⟨frames, .separator (.array (value :: elements).reverse)⟩
  | .separator value, .comma, .object members name :: frames =>
    some ⟨frames, .name (insertMember name value members)⟩
  | .separator value, .closeObject, .object members name :: frames =>
    some ⟨frames, .separator (.object (insertMember name value members))⟩
  | _, _, _ => none

/-- The reader after the given tokens. -/
def Reader.run? (reader : Reader) : List Token → Option Reader
  | [] => some reader
  | token :: tokens => do (← reader.step? token).run? tokens

/-- The value that a text holds. -/
def parse? (text : Text) : Option Json := do
  match ← Reader.run? ⟨[], .value⟩ (← tokens? text) with
  | ⟨[], .separator value⟩ => some value
  | _ => none

/-- The reader that goes by `parse?`. It does not say what is wrong with a text that holds no
value. -/
def parse : JsonReader := fun text => (parse? text).elim (.error []) .ok

end SheetImports.Json
