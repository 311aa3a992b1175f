import SheetImports.Decimal.Shortest

/-!
# JSON values

The values of the JSON data format. Integers that fit into 64 bits are exact and all other numbers
are doubles. An object keeps its members in the order of their names, one for each name.
-/

namespace SheetImports

namespace Json

/-- A JSON number. -/
inductive Number where
  | integer (n : Int)
  | double (x : Float)

end Json

/-- A JSON value. -/
inductive Json where
  | null
  | bool (b : Bool)
  | number (n : Json.Number)
  | string (text : Text)
  | array (elements : List Json)
  | object (members : List (Text × Json))

namespace Json

/-- The members with one more; a later member takes the place of an earlier one of its name. -/
def insertMember (name : Text) (value : Json) : List (Text × Json) → List (Text × Json)
  | [] => [(name, value)]
  | (other, old) :: members =>
    if name < other then (name, value) :: (other, old) :: members
    else if name = other then (name, value) :: members
    else (other, old) :: insertMember name value members

/-- The member of an object with a given name; other values have none. -/
def member? (name : Text) : Json → Option Json
  | object members => members.lookup name
  | _ => none

/-- The text of a string; other values have none. -/
def text? : Json → Option Text
  | string text => some text
  | _ => none

end Json

/-- A reader of JSON: it gives the value that a text holds, or says what is wrong with the text. -/
abbrev JsonReader := Text → Except Text Json

end SheetImports
