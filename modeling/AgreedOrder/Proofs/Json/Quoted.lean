/-
  AgreedOrder.Proofs.Json.Quoted

  Reading a quoted text gives the text. Every character is read back as it was
  written: by an escape with one letter, by one with four digits, or by its
  own bytes, none of which is a quote, a backslash or a control character.

    * `scan_quoted` — the pieces of a quoted text.
    * `decodePieces_textPieces` — and what they stand for.
-/

import AgreedOrder.Json.Quoted
import AgreedOrder.Proofs.Text.Utf8

namespace AgreedOrder.Json

open Bytes

/-! ## Single escapes -/

/-- Put pieces before those that are read next. -/
def prependPieces (ps : List Piece) (r : List Piece × Bytes) : List Piece × Bytes :=
  (ps ++ r.1, r.2)

theorem scan_byte {b : UInt8} (hquote : b ≠ 0x22) (hbackslash : b ≠ 0x5C) (hcontrol : ¬b < 0x20)
    (rest : Bytes) : scan (b :: rest) = (scan rest).map (prependPieces [.byte b]) := by
  rw [scan.eq_def]
  simp only [if_neg hquote, if_neg hbackslash, if_neg hcontrol]
  cases scan rest <;> rfl

theorem scan_letter {e : UInt8} {u : Nat} (hletter : letterEscape? e = some u) (he : e ≠ 0x75)
    (rest : Bytes) :
    scan (0x5C :: e :: rest) = (scan rest).map (prependPieces [.codeUnit u]) := by
  rw [scan.eq_def]
  simp only [if_neg he, hletter]
  cases scan rest <;> rfl

theorem scan_hex {a b c d : UInt8} {u : Nat} (hhex : hexEscape? a b c d = some u)
    (rest : Bytes) :
    scan (0x5C :: 0x75 :: a :: b :: c :: d :: rest)
      = (scan rest).map (prependPieces [.codeUnit u]) := by
  rw [scan.eq_def]
  simp only [hhex]
  cases scan rest <;> rfl

/-- The bytes of a character that needs no escape stand for themselves. -/
theorem scan_bytes {bs : Bytes}
    (h : ∀ b ∈ bs, b ≠ 0x22 ∧ b ≠ 0x5C ∧ ¬b < 0x20) (rest : Bytes) :
    scan (bs ++ rest) = (scan rest).map (prependPieces (bs.map .byte)) := by
  induction bs with
  | nil =>
    show scan rest = _
    cases scan rest <;> rfl
  | cons b bs ih =>
    obtain ⟨hquote, hbackslash, hcontrol⟩ := h b (List.mem_cons_self ..)
    rw [List.cons_append, scan_byte hquote hbackslash hcontrol,
      ih fun a ha => h a (List.mem_cons_of_mem _ ha)]
    cases scan rest <;> rfl

/-! ## Single characters -/

/-- The code unit of an escape that stands alone. -/
def readEscape? : Bytes → Option Nat
  | [0x5C, e] => if e = 0x75 then none else letterEscape? e
  | [0x5C, 0x75, a, b, c, d] => hexEscape? a b c d
  | _ => none

theorem scan_of_readEscape? {bs : Bytes} {u : Nat} (h : readEscape? bs = some u) (rest : Bytes) :
    scan (bs ++ rest) = (scan rest).map (prependPieces [.codeUnit u]) := by
  unfold readEscape? at h
  split at h
  · obtain ⟨he, hletter⟩ := Option.ite_none_left_eq_some.1 h
    exact scan_letter hletter he rest
  · exact scan_hex h rest
  · cases h

/-- Whether a character is escaped. -/
def isEscaped (c : Char) : Bool := c = '"' || c = '\\' || c.toNat < 0x20

theorem readEscape?_escapeChar {c : Char} (h : isEscaped c = true) :
    readEscape? (ofChars (escapeChar c)) = some c.toNat := by
  have hlt : c.toNat < 93 := by
    unfold isEscaped at h
    simp only [Bool.or_eq_true, decide_eq_true_eq] at h
    rcases h with (rfl | rfl) | h
    · decide
    · decide
    · omega
  have hall : ∀ k : Fin 93, isEscaped (Char.ofNat k.val) = true →
      readEscape? (ofChars (escapeChar (Char.ofNat k.val))) = some (Char.ofNat k.val).toNat := by
    decide +kernel
  have hc := hall ⟨c.toNat, hlt⟩
  rw [Char.ofNat_toNat] at hc
  exact hc h

theorem escapeChar_of_not_isEscaped {c : Char} (h : isEscaped c = false) : escapeChar c = [c] := by
  unfold isEscaped at h
  simp only [Bool.or_eq_false_iff, decide_eq_false_iff_not] at h
  obtain ⟨⟨hquote, hbackslash⟩, hcontrol⟩ := h
  have hne : ∀ d : Char, d.toNat < 0x20 → c ≠ d := fun d hd heq => hcontrol (heq ▸ hd)
  unfold escapeChar
  rw [if_neg hquote, if_neg hbackslash, if_neg (hne _ (by decide)), if_neg (hne _ (by decide)),
    if_neg (hne _ (by decide)), if_neg (hne _ (by decide)), if_neg (hne _ (by decide)),
    if_neg hcontrol]

/-- No byte of a character that is not escaped is a quote, a backslash or a control character. -/
theorem plain_of_mem_utf8EncodeChar {c : Char} (h : isEscaped c = false) {b : UInt8}
    (hb : b ∈ String.utf8EncodeChar c) : b ≠ 0x22 ∧ b ≠ 0x5C ∧ ¬b < 0x20 := by
  by_cases hlt : c.toNat < 128
  · have hall : ∀ k : Fin 128, isEscaped (Char.ofNat k.val) = false →
        UInt8.ofNat k.val ≠ 0x22 ∧ UInt8.ofNat k.val ≠ 0x5C ∧ ¬UInt8.ofNat k.val < 0x20 := by
      decide +kernel
    have hc := hall ⟨c.toNat, hlt⟩
    rw [Char.ofNat_toNat] at hc
    rw [utf8EncodeChar_of_lt hlt, List.mem_singleton] at hb
    rw [hb]
    exact hc h
  · have hlarge := le_of_mem_utf8EncodeChar (Nat.not_lt.1 hlt) hb
    refine ⟨?_, ?_, ?_⟩
    · rintro rfl
      exact absurd hlarge (by decide)
    · rintro rfl
      exact absurd hlarge (by decide)
    · intro hsmall
      have hnat := UInt8.lt_iff_toNat_lt.1 hsmall
      have hbound : (0x20 : UInt8).toNat = 32 := rfl
      omega

/-- The pieces of a character. -/
def charPieces (c : Char) : List Piece :=
  if isEscaped c then [.codeUnit c.toNat] else (String.utf8EncodeChar c).map .byte

theorem scan_escapeChar (c : Char) (rest : Bytes) :
    scan (ofChars (escapeChar c) ++ rest) = (scan rest).map (prependPieces (charPieces c)) := by
  unfold charPieces
  cases h : isEscaped c with
  | true => exact scan_of_readEscape? (readEscape?_escapeChar h) rest
  | false =>
    rw [escapeChar_of_not_isEscaped h, ofChars_cons, ofChars_nil, List.append_nil]
    exact scan_bytes (fun b hb => plain_of_mem_utf8EncodeChar h hb) rest

/-! ## What pieces stand for -/

theorem pieceBytes_bytes (bs : Bytes) (ps : List Piece) :
    pieceBytes (bs.map .byte ++ ps) = (pieceBytes ps).map (bs ++ ·) := by
  induction bs with
  | nil => exact (Option.map_id' ..).symm
  | cons b bs ih =>
    rw [List.map_cons, List.cons_append, pieceBytes, ih, Option.map_map]
    rfl

theorem pieceBytes_charPieces (c : Char) (ps : List Piece) :
    pieceBytes (charPieces c ++ ps) = (pieceBytes ps).map (String.utf8EncodeChar c ++ ·) := by
  unfold charPieces
  cases h : isEscaped c with
  | true =>
    have hlt : c.toNat < 0xD800 := by
      unfold isEscaped at h
      simp only [Bool.or_eq_true, decide_eq_true_eq] at h
      rcases h with (rfl | rfl) | h
      · decide
      · decide
      · omega
    have hhigh : isHighSurrogate c.toNat = false := by
      unfold isHighSurrogate
      rw [decide_eq_false (by omega), Bool.false_and]
    have hlow : isLowSurrogate c.toNat = false := by
      unfold isLowSurrogate
      rw [decide_eq_false (by omega), Bool.false_and]
    show pieceBytes (.codeUnit c.toNat :: ps) = _
    rw [pieceBytes.eq_def]
    simp only [hhigh, hlow, Char.ofNat_toNat]
    rfl
  | false => exact pieceBytes_bytes _ ps

/-! ## Whole texts -/

/-- The pieces of a quoted text. -/
def textPieces (s : String) : List Piece := s.toList.flatMap charPieces

theorem scan_chars (cs : List Char) (rest : Bytes) :
    scan (ofChars (cs.flatMap escapeChar) ++ rest)
      = (scan rest).map (prependPieces (cs.flatMap charPieces)) := by
  induction cs with
  | nil =>
    show scan rest = _
    cases scan rest <;> rfl
  | cons c cs ih =>
    rw [List.flatMap_cons, List.flatMap_cons, ofChars_append, List.append_assoc, scan_escapeChar,
      ih, Option.map_map]
    cases scan rest with
    | none => rfl
    | some r =>
      show some _ = some _
      simp only [Function.comp_apply, prependPieces, List.append_assoc]

/-- What is scanned behind the opening quote of a quoted text ends at its closing quote. -/
theorem scan_quoted (s : String) (rest : Bytes) :
    scan (ofChars (s.toList.flatMap escapeChar) ++ 0x22 :: rest) = some (textPieces s, rest) := by
  rw [scan_chars, scan.eq_def]
  simp only [if_true, Option.map_some, prependPieces, List.append_nil]
  rfl

theorem pieceBytes_chars (cs : List Char) :
    pieceBytes (cs.flatMap charPieces) = some (ofChars cs) := by
  induction cs with
  | nil => rfl
  | cons c cs ih =>
    rw [List.flatMap_cons, pieceBytes_charPieces, ih, Option.map_some, ofChars_cons]

/-- The pieces of a quoted text stand for the text. -/
theorem decodePieces_textPieces (s : String) : decodePieces (textPieces s) = some s := by
  unfold decodePieces textPieces
  rw [pieceBytes_chars, Option.bind_some, ← ofText_eq, toText?_ofText]

end AgreedOrder.Json
