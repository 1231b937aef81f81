/-
  AgreedOrder.Base64

  The base64 text of a byte string, with the standard alphabet and padding.
  Three bytes make four symbols. Reading is strict: no blanks, padding where
  writing puts it, and the unused bits of the last symbol zero, so every byte
  string has one text.
-/

import AgreedOrder.Text.Bytes

namespace AgreedOrder.Base64

/-! ## Symbols -/

/-- The symbol of a value below sixty-four. -/
def symbol (n : Nat) : Char :=
  if n < 26 then Char.ofNat ('A'.toNat + n)
  else if n < 52 then Char.ofNat ('a'.toNat + (n - 26))
  else if n < 62 then Char.ofNat ('0'.toNat + (n - 52))
  else if n = 62 then '+'
  else '/'

/-- The value of a symbol. -/
def value? (c : Char) : Option Nat :=
  if 'A' ≤ c ∧ c ≤ 'Z' then some (c.toNat - 'A'.toNat)
  else if 'a' ≤ c ∧ c ≤ 'z' then some (c.toNat - 'a'.toNat + 26)
  else if '0' ≤ c ∧ c ≤ '9' then some (c.toNat - '0'.toNat + 52)
  else if c = '+' then some 62
  else if c = '/' then some 63
  else none

theorem value?_symbol {n : Nat} (h : n < 64) : value? (symbol n) = some n := by
  have : ∀ k : Fin 64, value? (symbol k.val) = some k.val := by decide
  exact this ⟨n, h⟩

/-! ## Texts -/

/-- The symbols of a byte string. -/
def encodeChars : Bytes → List Char
  | [] => []
  | [a] =>
    let n := a.toNat * 16
    [symbol (n / 64), symbol (n % 64), '=', '=']
  | [a, b] =>
    let n := (a.toNat * 256 + b.toNat) * 4
    [symbol (n / 4096), symbol (n / 64 % 64), symbol (n % 64), '=']
  | a :: b :: c :: rest =>
    let n := (a.toNat * 256 + b.toNat) * 256 + c.toNat
    symbol (n / 262144) :: symbol (n / 4096 % 64) :: symbol (n / 64 % 64) :: symbol (n % 64) ::
      encodeChars rest

/-- The byte string that symbols stand for. -/
def decodeChars : List Char → Option Bytes
  | [] => some []
  -- Two symbols hold one byte and four bits more.
  | [w, x, '=', '='] => do
    let n := (← value? w) * 64 + (← value? x)
    if n % 16 = 0 then some [(n / 16).toUInt8] else none
  -- Three symbols hold two bytes and two bits more.
  | [w, x, y, '='] => do
    let n := ((← value? w) * 64 + (← value? x)) * 64 + (← value? y)
    if n % 4 = 0 then some [(n / 1024).toUInt8, (n / 4).toUInt8] else none
  | w :: x :: y :: z :: rest => do
    let n := (((← value? w) * 64 + (← value? x)) * 64 + (← value? y)) * 64 + (← value? z)
    let tail ← decodeChars rest
    some ((n / 65536).toUInt8 :: (n / 256).toUInt8 :: n.toUInt8 :: tail)
  | _ => none

/-- The base64 text of a byte string. -/
def encode (b : Bytes) : String := String.ofList (encodeChars b)

/-- The byte string of a base64 text. -/
def decode (s : String) : Option Bytes := decodeChars s.toList

end AgreedOrder.Base64
