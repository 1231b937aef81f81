/-
  AgreedOrder.Json.Value

  Values of the JSON format, read from the tokens of a document one by one.
  The reader's state is the stack of brackets that are open with what each
  holds so far, and what may come next.
-/

import AgreedOrder.Json.Token

namespace AgreedOrder.Json

/-- A value. Members of an object stand in the order of the document, names that occur twice
    included. A number that is no integer, and a string without a text, keep nothing. -/
inductive Value
  | null
  | bool (b : Bool)
  | number (value : Option Int)
  | string (text : Option String)
  | array (items : List Value)
  | object (members : List (Option String × Value))

/-- A bracket that is open, with what it holds so far, the latest first. Of an object, also the
    name whose value is being read. -/
inductive OpenBracket
  | array (items : List Value)
  | object (members : List (Option String × Value)) (name : Option String)

/-- What the tokens read so far amount to. -/
inductive ReadState
  /-- A value must come. -/
  | value (stack : List OpenBracket)
  /-- An array was opened: a value or its end must come. -/
  | arrayStart (outer : List OpenBracket)
  /-- An object was opened: a name or its end must come. -/
  | objectStart (outer : List OpenBracket)
  /-- A comma stood in an object: a name must come. -/
  | name (members : List (Option String × Value)) (outer : List OpenBracket)
  /-- A name was read: a colon must come. -/
  | colon (members : List (Option String × Value)) (name : Option String)
      (outer : List OpenBracket)
  /-- A value was read in the brackets that are open. -/
  | after (v : Value) (stack : List OpenBracket)

/-- Read the first token of a value. -/
def beginValue (stack : List OpenBracket) : Token → Option ReadState
  | .null => some (.after .null stack)
  | .bool b => some (.after (.bool b) stack)
  | .number n => some (.after (.number n) stack)
  | .string s => some (.after (.string s) stack)
  | .openArray => some (.arrayStart stack)
  | .openObject => some (.objectStart stack)
  | _ => none

/-- Read one token. -/
def ReadState.step : ReadState → Token → Option ReadState
  | .value stack, t => beginValue stack t
  | .arrayStart outer, .closeArray => some (.after (.array []) outer)
  | .arrayStart outer, t => beginValue (.array [] :: outer) t
  | .objectStart outer, .closeObject => some (.after (.object []) outer)
  | .objectStart outer, .string n => some (.colon [] n outer)
  | .name members outer, .string n => some (.colon members n outer)
  | .colon members n outer, .colon => some (.value (.object members n :: outer))
  | .after v (.array items :: outer), .comma => some (.value (.array (v :: items) :: outer))
  | .after v (.array items :: outer), .closeArray =>
    some (.after (.array (v :: items).reverse) outer)
  | .after v (.object members n :: outer), .comma => some (.name ((n, v) :: members) outer)
  | .after v (.object members n :: outer), .closeObject =>
    some (.after (.object ((n, v) :: members).reverse) outer)
  | _, _ => none

/-- The value of a document that is read to its end. -/
def ReadState.finished? : ReadState → Option Value
  | .after v [] => some v
  | _ => none

/-- The value of a list of tokens. -/
def Value.ofTokens? (ts : List Token) : Option Value :=
  (ts.foldlM ReadState.step (.value [])).bind ReadState.finished?

/-- The value of a document. -/
def Value.parse? (document : Bytes) : Option Value :=
  (tokens? document).bind Value.ofTokens?

end AgreedOrder.Json
