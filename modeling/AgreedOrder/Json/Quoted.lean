/-
  AgreedOrder.Json.Quoted

  Strings of the JSON format, between their quotes. Writing escapes the quote,
  the backslash and the control characters, and nothing else. Reading goes in
  two steps: `scan` finds the closing quote and keeps what stood before it as
  pieces, and `decodePieces` turns the pieces into a text. A string that is
  well-formed need not have a text: its bytes may not be UTF-8, and an escape
  may name half of a surrogate pair.
-/

import AgreedOrder.Text.Bytes
import AgreedOrder.Text.Digit

namespace AgreedOrder.Json

/-! ## Writing -/

/-- A character as it stands in a string. -/
def escapeChar (c : Char) : List Char :=
  if c = '"' then ['\\', '"']
  else if c = '\\' then ['\\', '\\']
  else if c = '\x08' then ['\\', 'b']
  else if c = '\t' then ['\\', 't']
  else if c = '\n' then ['\\', 'n']
  else if c = '\x0c' then ['\\', 'f']
  else if c = '\r' then ['\\', 'r']
  else if c.toNat < 0x20 then '\\' :: 'u' :: Text.hexDigits 4 c.toNat
  else [c]

/-- A text between quotes. -/
def quoteChars (s : String) : List Char :=
  '"' :: (s.toList.flatMap escapeChar ++ ['"'])

/-! ## Reading -/

/-- A piece of a string: a byte as it stood there, or the code unit of an escape. -/
inductive Piece
  | byte (b : UInt8)
  | codeUnit (u : Nat)
  deriving DecidableEq, Repr

/-- The code unit of an escape with one letter. -/
def letterEscape? (b : UInt8) : Option Nat :=
  if b = 0x22 then some 0x22
  else if b = 0x5C then some 0x5C
  else if b = 0x2F then some 0x2F
  else if b = 0x62 then some 0x08
  else if b = 0x66 then some 0x0C
  else if b = 0x6E then some 0x0A
  else if b = 0x72 then some 0x0D
  else if b = 0x74 then some 0x09
  else none

/-- The code unit of four hexadecimal digits. -/
def hexEscape? (a b c d : UInt8) : Option Nat :=
  Text.readHex 0 ([a, b, c, d].map fun x => Char.ofNat x.toNat)

/-- The pieces up to the closing quote, and what follows it. A control character that stands for
    itself is refused. -/
def scan : Bytes → Option (List Piece × Bytes)
  | [] => none
  | b :: rest =>
    if b = 0x22 then some ([], rest)
    else if b = 0x5C then
      match rest with
      | [] => none
      | e :: rest =>
        if e = 0x75 then
          match rest with
          | h₁ :: h₂ :: h₃ :: h₄ :: rest => do
            let u ← hexEscape? h₁ h₂ h₃ h₄
            let (pieces, rest) ← scan rest
            some (.codeUnit u :: pieces, rest)
          | _ => none
        else do
          let u ← letterEscape? e
          let (pieces, rest) ← scan rest
          some (.codeUnit u :: pieces, rest)
    else if b < 0x20 then none
    else do
      let (pieces, rest) ← scan rest
      some (.byte b :: pieces, rest)

theorem scan_length_le (bs : Bytes) {pieces : List Piece} {rest : Bytes}
    (h : scan bs = some (pieces, rest)) : rest.length ≤ bs.length := by
  fun_induction scan bs generalizing pieces rest with
  | case1 => simp at h
  | case2 => simp_all
  | case3 => simp at h
  | case4 =>
    rename_i ih
    simp only [Option.bind_eq_bind, Option.bind_eq_some_iff, Option.some.injEq,
      Prod.mk.injEq, Prod.exists] at h
    obtain ⟨u, -, ps, r, hs, -, rfl⟩ := h
    have := ih hs
    simp only [List.length_cons]
    omega
  | case5 => simp at h
  | case6 =>
    rename_i ih
    simp only [Option.bind_eq_bind, Option.bind_eq_some_iff, Option.some.injEq,
      Prod.mk.injEq, Prod.exists] at h
    obtain ⟨u, -, ps, r, hs, -, rfl⟩ := h
    have := ih hs
    simp only [List.length_cons]
    omega
  | case7 => simp at h
  | case8 =>
    rename_i ih
    simp only [Option.bind_eq_bind, Option.bind_eq_some_iff, Option.some.injEq,
      Prod.mk.injEq, Prod.exists] at h
    obtain ⟨ps, r, hs, -, rfl⟩ := h
    have := ih hs
    simp only [List.length_cons]
    omega

/-- Whether a code unit opens a surrogate pair. -/
def isHighSurrogate (u : Nat) : Bool := 0xD800 ≤ u && u ≤ 0xDBFF

/-- Whether a code unit closes a surrogate pair. -/
def isLowSurrogate (u : Nat) : Bool := 0xDC00 ≤ u && u ≤ 0xDFFF

/-- The UTF-8 bytes that pieces stand for. A pair of surrogates is one character; half a pair is
    none. -/
def pieceBytes : List Piece → Option Bytes
  | [] => some []
  | .byte b :: rest => (pieceBytes rest).map (b :: ·)
  | .codeUnit u :: rest =>
    if isHighSurrogate u then
      -- The second half of the pair must follow at once, as an escape too.
      match rest with
      | .codeUnit l :: rest =>
        if isLowSurrogate l then
          (pieceBytes rest).map
            (String.utf8EncodeChar (Char.ofNat (0x10000 + (u - 0xD800) * 0x400 + (l - 0xDC00)))
              ++ ·)
        else none
      | _ => none
    else if isLowSurrogate u then none
    else (pieceBytes rest).map (String.utf8EncodeChar (Char.ofNat u) ++ ·)

/-- The text of a string's pieces, if they have one. -/
def decodePieces (pieces : List Piece) : Option String :=
  (pieceBytes pieces).bind Bytes.toText?

end AgreedOrder.Json
