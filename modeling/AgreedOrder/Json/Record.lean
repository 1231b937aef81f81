/-
  AgreedOrder.Json.Record

  Records: objects with a fixed list of named fields. A record is written with
  its fields in that order. It is read from an object, whatever the order of
  its members and whatever else it holds, as long as no field occurs twice; or
  from an array of the fields' values in order.
-/

import AgreedOrder.Base64
import AgreedOrder.Json.Value
import AgreedOrder.MessageId

namespace AgreedOrder.Json

/-! ## Fields -/

/-- The value of a field that is written: a text or a whole number. -/
inductive Scalar
  | text (s : String)
  | whole (n : Int)
  deriving DecidableEq, Repr

/-- A scalar as it stands in a document. -/
def Scalar.chars : Scalar → List Char
  | .text s => quoteChars s
  | .whole n => (toString n).toList

/-- A named scalar as it stands in an object. -/
def memberChars (m : String × Scalar) : List Char :=
  quoteChars m.1 ++ ':' :: m.2.chars

/-- An object of named scalars, without blanks. -/
def objectChars (members : List (String × Scalar)) : List Char :=
  '{' :: (List.intercalate [','] (members.map memberChars) ++ ['}'])

/-! ## Reading fields -/

/-- The text of a field. -/
def textField? : Option Value → Option String
  | some (.string s) => s
  | _ => none

/-- The whole number of a field, within a range. -/
def wholeField? (range : Text.Range) : Option Value → Option Int
  | some (.number (some n)) => if range.low ≤ n ∧ n ≤ range.high then some n else none
  | _ => none

/-- The number of a field of sixty-four bits. -/
def numberField? (v : Option Value) : Option UInt64 :=
  (wholeField? .u64 v).map fun n => UInt64.ofNat n.toNat

/-- The signed number of a field of sixty-four bits. -/
def signedField? (v : Option Value) : Option Int64 :=
  (wholeField? .i64 v).map Int64.ofInt

/-- The id of a field. -/
def idField? (v : Option Value) : Option MessageId :=
  (textField? v).bind MessageId.ofText?

/-- The bytes of a field that may be missing. Missing and null stand for no bytes. -/
def bytesField? : Option Value → Option Bytes
  | none => some []
  | some .null => some []
  | some (.string s) => s.bind Base64.decode
  | _ => none

/-! ## Records -/

/-- Types written as objects with a fixed list of named fields. -/
class Record (α : Type) where
  /-- The names of the fields, in the order they are written. -/
  names : List String
  /-- The values of the fields, in that order. -/
  write : α → List Scalar
  /-- The record with these fields, in that order; `none` is a field that is missing. -/
  read : List (Option Value) → Option α

/-- The members of an object under a name. -/
def membersNamed (name : String) (members : List (Option String × Value)) : List Value :=
  (members.filter fun m => m.1 == some name).map (·.2)

/-- The value of an object's field: missing, or given once. -/
def field? (members : List (Option String × Value)) (name : String) : Option (Option Value) :=
  match membersNamed name members with
  | [] => some none
  | [v] => some (some v)
  | _ => none

namespace Record

variable {α : Type} [Record α]

/-- The fields of a value, in order. -/
def fieldsOf? (names : List String) : Value → Option (List (Option Value))
  | .object members =>
    -- Every name must have a text, those that are no field included.
    if members.all (·.1.isSome) then names.mapM (field? members) else none
  | .array items =>
    -- Fields at the end may be missing; whether one may is for `read` to say.
    if items.length ≤ names.length then
      some (items.map some ++ List.replicate (names.length - items.length) none)
    else none
  | _ => none

/-- The text of a record, on one line. -/
def encodeText (a : α) : String :=
  String.ofList (objectChars ((names α).zip (write a)))

/-- The bytes of a record. -/
def encode (a : α) : Bytes := Bytes.ofText (encodeText a)

/-- The record of a value. -/
def ofValue? (v : Value) : Option α := (fieldsOf? (names α) v).bind read

/-- The record of a document. -/
def decode? (document : Bytes) : Option α := (Value.parse? document).bind ofValue?

end Record

end AgreedOrder.Json
