import SheetImports.Error
import SheetImports.Text.Quoted
import SheetImports.Text.Utf8

/-!
# Opened stylesheets

A stream gives the octets of a stylesheet in reads of bounded size, and may break off at a fixed
place. A source is a stream with the uri under which it was opened.
-/

namespace SheetImports

/-- A stream of octets. -/
structure Stream where
  /-- The octets that are left. -/
  bytes : Bytes
  /-- The most octets that one read gives, if there is a limit. -/
  chunk : Option Nat := none
  /-- After how many more octets reads fail, and why, if ever. -/
  fault : Option (Nat × Cause) := none
  deriving DecidableEq, Repr

namespace Stream

/-- The stream of the given octets, without limit or fault. -/
def ofBytes (bytes : Bytes) : Stream := { bytes }

/-- The stream whose first read fails. -/
def broken (cause : Cause) : Stream := { bytes := [], fault := some (0, cause) }

/-- One read of at most `size` octets, and the stream after it. No read goes past the place of the
fault, and at that place every read fails. -/
def read (stream : Stream) (size : Nat) : Except Cause Bytes × Stream :=
  match stream.fault with
  | some (0, cause) => (.error cause, stream)
  | fault =>
    let size := min size (stream.chunk.getD size)
    let size := min size (fault.elim size (·.1))
    let bytes := stream.bytes.take size
    (.ok bytes, { stream with
      bytes := stream.bytes.drop size
      fault := fault.map fun (distance, cause) => (distance - bytes.length, cause) })

/-- The reads of the given sizes, in order, and the stream after them. -/
def reads (stream : Stream) : List Nat → List (Except Cause Bytes) × Stream
  | [] => ([], stream)
  | size :: sizes =>
    let (first, stream) := stream.read size
    let (others, stream) := stream.reads sizes
    (first :: others, stream)

/-- All octets that are left, read up to the first empty read. A fault that lies within them, or
right behind them, is met. -/
def drain (stream : Stream) : Except Cause Bytes :=
  let bytes := if stream.chunk = some 0 then [] else stream.bytes
  match stream.fault with
  | some (distance, cause) => if distance ≤ bytes.length then .error cause else .ok bytes
  | none => .ok bytes

theorem drain_ofBytes (bytes : Bytes) : (ofBytes bytes).drain = .ok bytes := rfl

end Stream

/-- An opened stylesheet. -/
structure Source where
  uri : Text
  stream : Stream
  deriving DecidableEq, Repr

namespace Source

/-- The text that is left, with U+FFFD for what is not UTF-8. -/
def readText (source : Source) : Except ImportError Text :=
  match source.stream.drain with
  | .ok bytes => .ok (Utf8.decode bytes)
  | .error cause => .error (.io source.uri cause)

/-- A source as it is shown to a programmer: its uri, and a sign that there is more. -/
def describe (source : Source) : Text :=
  "ResolvedSource \x7b uri: ".toList ++ source.uri.quoted ++ ", .. \x7d".toList

end Source

end SheetImports
