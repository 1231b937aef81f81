/-
  AgreedOrder.Proofs.Json.Token

  One token after the other. A mark and a quoted text end where they end,
  whatever follows; a number ends only where no digit, point or exponent
  follows.

    * `tokens?_mark`, `tokens?_quoteChars` — one token each.
    * `EndsNumber`, `digits?_append` — where a number ends.
-/

import AgreedOrder.Json.Token
import AgreedOrder.Proofs.Json.Quoted

namespace AgreedOrder.Json

open Bytes

/-! ## One token after the other -/

theorem tokens?_cons {b : UInt8} {bs rest : Bytes} {t : Token} (hspace : isSpace b = false)
    (h : token? b bs = some (t, rest)) : tokens? (b :: bs) = (tokens? rest).map (t :: ·) := by
  rw [tokens?, if_neg (by rw [hspace]; exact Bool.false_ne_true)]
  split
  · rename_i hnone
    rw [hnone] at h
    cases h
  · rename_i hsome
    rw [hsome] at h
    cases h
    rfl

theorem tokens?_mark {b : UInt8} {t : Token} (hspace : isSpace b = false) (h : mark? b = some t)
    (rest : Bytes) : tokens? (b :: rest) = (tokens? rest).map (t :: ·) := by
  refine tokens?_cons hspace ?_
  unfold token?
  rw [h]

/-- A quoted text is one token. -/
theorem tokens?_quoteChars (s : String) (rest : Bytes) :
    tokens? (ofChars (quoteChars s) ++ rest) = (tokens? rest).map (.string (some s) :: ·) := by
  have hbytes : ofChars (quoteChars s) ++ rest
      = 0x22 :: (ofChars (s.toList.flatMap escapeChar) ++ 0x22 :: rest) := by
    unfold quoteChars
    rw [ofChars_cons_of_lt (by decide), ofChars_append, ofChars_cons_of_lt (by decide), ofChars_nil,
      List.cons_append, List.append_assoc]
    rfl
  rw [hbytes]
  refine tokens?_cons rfl ?_
  unfold token?
  rw [show mark? 0x22 = none from rfl, scan_quoted]
  show some (Token.string (decodePieces (textPieces s)), rest) = _
  rw [decodePieces_textPieces]

/-! ## Numbers -/

/-- What follows a number does not go on with it. -/
def EndsNumber (rest : Bytes) : Prop :=
  ∀ b, rest.head? = some b → isDigit b = false ∧ b ≠ 0x2E ∧ b ≠ 0x65 ∧ b ≠ 0x45

theorem digits?_append {ds rest : Bytes} (hne : ds ≠ []) (hds : ∀ b ∈ ds, isDigit b = true)
    (hrest : ∀ b, rest.head? = some b → isDigit b = false) :
    digits? (ds ++ rest) = some (ds, rest) := by
  have htake : (ds ++ rest).takeWhile isDigit = ds := by
    rw [List.takeWhile_append_of_pos hds]
    cases rest with
    | nil => rw [List.takeWhile_nil, List.append_nil]
    | cons b rest =>
      rw [List.takeWhile_cons, hrest b rfl, if_neg Bool.false_ne_true, List.append_nil]
  have hdrop : (ds ++ rest).dropWhile isDigit = rest := by
    rw [List.dropWhile_append_of_pos hds]
    cases rest with
    | nil => rfl
    | cons b rest => rw [List.dropWhile_cons, hrest b rfl, if_neg Bool.false_ne_true]
  unfold digits?
  rw [htake, hdrop]
  split
  · exact absurd rfl hne
  · rfl

theorem exponent?_of_ends {rest : Bytes} (h : EndsNumber rest) :
    exponent? rest = some (false, rest) := by
  cases rest with
  | nil => rfl
  | cons b rest =>
    obtain ⟨-, -, hsmall, hlarge⟩ := h b rfl
    have hne : ¬(b = 0x65 ∨ b = 0x45) := not_or.2 ⟨hsmall, hlarge⟩
    unfold exponent?
    dsimp only
    rw [if_neg hne]

/-- What holds of the numbers of all bytes holds of every byte. -/
theorem forall_byte {P : UInt8 → Prop} (h : ∀ k : Fin 256, P (UInt8.ofNat k.val)) (b : UInt8) :
    P b := by
  have hb := h ⟨b.toNat, b.toNat_lt⟩
  rwa [UInt8.ofNat_toNat] at hb

/-- A digit is neither a blank nor a mark, nor does it start a string or a sign. -/
theorem plain_of_isDigit {b : UInt8} (h : isDigit b = true) :
    isSpace b = false ∧ mark? b = none ∧ b ≠ 0x22 ∧ b ≠ 0x2D := by
  have hall : ∀ b, isDigit b = true → isSpace b = false ∧ mark? b = none ∧ b ≠ 0x22 ∧ b ≠ 0x2D :=
    forall_byte (by decide +kernel)
  exact hall b h

end AgreedOrder.Json
