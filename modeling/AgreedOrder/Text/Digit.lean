/-
  AgreedOrder.Text.Digit

  Digits and numerals. Decimal numerals are read with a range and refused at
  the first character that leaves it; hexadecimal digits are read in either
  case and written in lower case with a fixed width.
-/

namespace AgreedOrder.Text

/-! ## Single digits -/

/-- The value of a decimal digit `0` to `9`. -/
def digit? (c : Char) : Option Nat :=
  if '0' ≤ c ∧ c ≤ '9' then some (c.toNat - '0'.toNat) else none

/-- The value of a hexadecimal digit of either case. -/
def hexDigit? (c : Char) : Option Nat :=
  if '0' ≤ c ∧ c ≤ '9' then some (c.toNat - '0'.toNat)
  else if 'a' ≤ c ∧ c ≤ 'f' then some (c.toNat - 'a'.toNat + 10)
  else if 'A' ≤ c ∧ c ≤ 'F' then some (c.toNat - 'A'.toNat + 10)
  else none

/-- The lower-case hexadecimal digit of a value below sixteen. -/
def hexChar (n : Nat) : Char :=
  if n < 10 then Char.ofNat ('0'.toNat + n) else Char.ofNat ('a'.toNat + (n - 10))

theorem hexDigit?_hexChar {n : Nat} (h : n < 16) : hexDigit? (hexChar n) = some n := by
  have : ∀ k : Fin 16, hexDigit? (hexChar k.val) = some k.val := by decide
  exact this ⟨n, h⟩

/-! ## Hexadecimal numerals of a fixed width -/

/-- The last `width` hexadecimal digits of a number, the most significant first. -/
def hexDigits : Nat → Nat → List Char
  | 0, _ => []
  | width + 1, n => hexDigits width (n / 16) ++ [hexChar (n % 16)]

@[simp] theorem length_hexDigits (width n : Nat) : (hexDigits width n).length = width := by
  induction width generalizing n with
  | zero => rfl
  | succ width ih => simp [hexDigits, ih]

/-- Read hexadecimal digits onto the number read so far. -/
def readHex : Nat → List Char → Option Nat
  | n, [] => some n
  | n, c :: rest =>
    match hexDigit? c with
    | some d => readHex (n * 16 + d) rest
    | none => none

theorem readHex_append (n : Nat) (xs ys : List Char) :
    readHex n (xs ++ ys) = (readHex n xs).bind (readHex · ys) := by
  induction xs generalizing n with
  | nil => rfl
  | cons c rest ih =>
    simp only [List.cons_append, readHex]
    cases hexDigit? c with
    | none => rfl
    | some d => exact ih _

/-- How many numbers `width` hexadecimal digits can write. -/
def hexRange : Nat → Nat
  | 0 => 1
  | width + 1 => 16 * hexRange width

/-- Reading the last digits of a number gives the number modulo their range. -/
theorem readHex_hexDigits (width k n : Nat) :
    readHex k (hexDigits width n) = some (k * hexRange width + n % hexRange width) := by
  induction width generalizing n with
  | zero => simp [hexDigits, readHex, hexRange, Nat.mod_one]
  | succ width ih =>
    rw [hexDigits, readHex_append, ih]
    simp only [Option.bind_some, readHex, hexDigit?_hexChar (Nat.mod_lt n (by decide : 0 < 16))]
    -- The last digit is the remainder modulo 16, and the others write the quotient.
    have hmod : n % hexRange (width + 1) = n % 16 + 16 * (n / 16 % hexRange width) := by
      rw [hexRange, Nat.mod_mul]
    rw [hmod, hexRange]
    congr 1
    rw [Nat.add_mul, Nat.mul_assoc, Nat.mul_comm (hexRange width) 16]
    omega

/-! ## Decimal numerals -/

/-- Why a decimal numeral is refused. -/
inductive NumeralError
  | invalidDigit
  | tooLarge
  | tooSmall
  deriving DecidableEq, Repr

/-- The words for a refused numeral. -/
def NumeralError.message : NumeralError → String
  | .invalidDigit => "invalid digit found in string"
  | .tooLarge => "number too large to fit in target type"
  | .tooSmall => "number too small to fit in target type"

/-- The whole numbers from `low` to `high`. -/
structure Range where
  low : Int
  high : Int

/-- The numbers of sixteen bits. -/
def Range.u16 : Range := ⟨0, 65535⟩

/-- The numbers of sixty-four bits. -/
def Range.u64 : Range := ⟨0, 18446744073709551615⟩

/-- The signed numbers of sixty-four bits. -/
def Range.i64 : Range := ⟨-9223372036854775808, 9223372036854775807⟩

/-- Read decimal digits onto the number read so far, with the sign `sign`. The first character
    that is no digit, or that leaves the range, settles the outcome. -/
def readDecimal (range : Range) (sign : Int) : Int → List Char → Except NumeralError Int
  | n, [] => .ok n
  | n, c :: rest =>
    match digit? c with
    | none => .error .invalidDigit
    | some d =>
      let next := n * 10 + sign * d
      if range.high < next then .error .tooLarge
      else if next < range.low then .error .tooSmall
      else readDecimal range sign next rest

/-- Read a decimal numeral: an optional sign, then at least one digit. A minus sign is read only
    where the range goes below zero. -/
def numeral (range : Range) (cs : List Char) : Except NumeralError Int :=
  match cs with
  | [] => .error .invalidDigit
  | '+' :: [] => .error .invalidDigit
  | '+' :: rest => readDecimal range 1 0 rest
  | '-' :: [] => .error .invalidDigit
  | '-' :: rest =>
    if range.low < 0 then readDecimal range (-1) 0 rest else .error .invalidDigit
  | cs => readDecimal range 1 0 cs

/-- The number of a decimal numeral within the range. -/
def numeral? (range : Range) (s : String) : Option Int := (numeral range s.toList).toOption

end AgreedOrder.Text
