/-
  AgreedOrder.Proofs.Base64

  Reading a base64 text gives the bytes it was written from. Three bytes are
  one number of twenty-four bits, which four symbols write in base 64; the
  bytes come back as its digits in base 256. No other text gives these bytes,
  because every symbol, and the padding, comes back from what was read.
-/

import AgreedOrder.Base64

namespace AgreedOrder.Base64

/-- No symbol is the padding character. -/
theorem symbol_ne_padding {n : Nat} (h : n < 64) : symbol n ≠ '=' := by
  have hall : ∀ k : Fin 64, symbol k.val ≠ '=' := by decide
  exact hall ⟨n, h⟩

/-- A byte is found again at any place of a larger number. -/
theorem toUInt8_eq {n : Nat} {b : UInt8} (h : n % 256 = b.toNat) : n.toUInt8 = b := by
  apply UInt8.toNat_inj.1
  rw [Nat.toUInt8, UInt8.toNat_ofNat', ← h]

theorem decodeChars_four {w x y z : Nat} (hw : w < 64) (hx : x < 64) (hy : y < 64) (hz : z < 64)
    (rest : List Char) :
    decodeChars (symbol w :: symbol x :: symbol y :: symbol z :: rest)
      = (decodeChars rest).map fun tail =>
        ((((w * 64 + x) * 64 + y) * 64 + z) / 65536).toUInt8 ::
          ((((w * 64 + x) * 64 + y) * 64 + z) / 256).toUInt8 ::
          (((w * 64 + x) * 64 + y) * 64 + z).toUInt8 :: tail := by
  have hz' := symbol_ne_padding hz
  rw [decodeChars]
  · rw [value?_symbol hw, value?_symbol hx, value?_symbol hy, value?_symbol hz]
    cases decodeChars rest <;> rfl
  · intro _ h _
    exact hz' h
  · intro h _
    exact hz' h

theorem decodeChars_encodeChars (b : Bytes) : decodeChars (encodeChars b) = some b := by
  fun_induction encodeChars b with
  | case1 => rfl
  | case2 a n =>
    have ha := a.toNat_lt
    have hn : n / 64 * 64 + n % 64 = n := by omega
    rw [decodeChars, value?_symbol (by omega), value?_symbol (by omega)]
    show (if (n / 64 * 64 + n % 64) % 16 = 0 then _ else none) = _
    rw [hn, if_pos (by omega), toUInt8_eq (b := a) (by omega)]
  | case3 a b n =>
    have ha := a.toNat_lt
    have hb := b.toNat_lt
    have hn : (n / 4096 * 64 + n / 64 % 64) * 64 + n % 64 = n := by omega
    rw [decodeChars]
    · rw [value?_symbol (by omega), value?_symbol (by omega), value?_symbol (by omega)]
      show (if ((n / 4096 * 64 + n / 64 % 64) * 64 + n % 64) % 4 = 0 then _ else none) = _
      rw [hn, if_pos (by omega), toUInt8_eq (b := a) (by omega), toUInt8_eq (b := b) (by omega)]
    · exact symbol_ne_padding (by omega)
  | case4 a b c rest n ih =>
    have ha := a.toNat_lt
    have hb := b.toNat_lt
    have hc := c.toNat_lt
    have hn : ((n / 262144 * 64 + n / 4096 % 64) * 64 + n / 64 % 64) * 64 + n % 64 = n := by omega
    rw [decodeChars_four (by omega) (by omega) (by omega) (by omega), ih, hn, Option.map_some,
      toUInt8_eq (b := a) (by omega), toUInt8_eq (b := b) (by omega),
      toUInt8_eq (b := c) (by omega)]

/-- Reading the base64 text of a byte string gives it back. -/
@[simp] theorem decode_encode (b : Bytes) : decode (encode b) = some b := by
  unfold decode encode
  rw [String.toList_ofList, decodeChars_encodeChars]

/-! ## Canonical texts -/

/-- A character that has a value is the symbol of that value. -/
theorem symbol_of_value? {c : Char} {n : Nat} (h : value? c = some n) : n < 64 ∧ symbol n = c := by
  have hlt : c.toNat < 128 := by
    have hle : ∀ {d : Char}, c ≤ d → d.toNat < 128 → c.toNat < 128 := fun hc hd =>
      Nat.lt_of_le_of_lt (UInt32.le_iff_toNat_le.1 hc) hd
    unfold value? at h
    split at h
    · rename_i hc
      exact hle hc.2 (by decide)
    split at h
    · rename_i hc
      exact hle hc.2 (by decide)
    split at h
    · rename_i hc
      exact hle hc.2 (by decide)
    split at h
    · rename_i hc
      rw [hc]
      decide
    split at h
    · rename_i hc
      rw [hc]
      decide
    · cases h
  have hall : ∀ k : Fin 128, (value? (Char.ofNat k.val)).all
      fun n => n < 64 ∧ symbol n = Char.ofNat k.val := by
    decide +kernel
  have hc := hall ⟨c.toNat, hlt⟩
  rw [Char.ofNat_toNat, h] at hc
  exact of_decide_eq_true hc

theorem toNat_toUInt8 (n : Nat) : n.toUInt8.toNat = n % 256 := UInt8.toNat_ofNat'

/-- Symbols that stand for a byte string are those it is written with. -/
theorem encodeChars_of_decodeChars {cs : List Char} {b : Bytes} (h : decodeChars cs = some b) :
    encodeChars b = cs := by
  fun_induction decodeChars cs generalizing b with
  | case1 =>
    cases h
    rfl
  | case2 w x =>
    simp only [Option.bind_eq_bind, Option.bind_eq_some_iff, Option.ite_none_right_eq_some] at h
    obtain ⟨i, hi, j, hj, hzero, heq⟩ := h
    cases heq
    obtain ⟨hi, rfl⟩ := symbol_of_value? hi
    obtain ⟨hj, rfl⟩ := symbol_of_value? hj
    have hn : ((i * 64 + j) / 16).toUInt8.toNat * 16 = i * 64 + j := by
      rw [toNat_toUInt8]
      omega
    simp only [encodeChars, hn]
    rw [show (i * 64 + j) / 64 = i by omega, show (i * 64 + j) % 64 = j by omega]
  | case3 w x y =>
    simp only [Option.bind_eq_bind, Option.bind_eq_some_iff, Option.ite_none_right_eq_some] at h
    obtain ⟨i, hi, j, hj, k, hk, hzero, heq⟩ := h
    cases heq
    obtain ⟨hi, rfl⟩ := symbol_of_value? hi
    obtain ⟨hj, rfl⟩ := symbol_of_value? hj
    obtain ⟨hk, rfl⟩ := symbol_of_value? hk
    have hn : ((((i * 64 + j) * 64 + k) / 1024).toUInt8.toNat * 256
        + (((i * 64 + j) * 64 + k) / 4).toUInt8.toNat) * 4 = (i * 64 + j) * 64 + k := by
      rw [toNat_toUInt8, toNat_toUInt8]
      omega
    simp only [encodeChars, hn]
    rw [show ((i * 64 + j) * 64 + k) / 4096 = i by omega,
      show ((i * 64 + j) * 64 + k) / 64 % 64 = j by omega,
      show ((i * 64 + j) * 64 + k) % 64 = k by omega]
  | case4 =>
    rename_i ih
    simp only [Option.bind_eq_bind, Option.bind_eq_some_iff] at h
    obtain ⟨i, hi, j, hj, k, hk, l, hl, tail, htail, heq⟩ := h
    cases heq
    obtain ⟨hi, rfl⟩ := symbol_of_value? hi
    obtain ⟨hj, rfl⟩ := symbol_of_value? hj
    obtain ⟨hk, rfl⟩ := symbol_of_value? hk
    obtain ⟨hl, rfl⟩ := symbol_of_value? hl
    have hn : (((((i * 64 + j) * 64 + k) * 64 + l) / 65536).toUInt8.toNat * 256
        + ((((i * 64 + j) * 64 + k) * 64 + l) / 256).toUInt8.toNat) * 256
        + (((i * 64 + j) * 64 + k) * 64 + l).toUInt8.toNat = ((i * 64 + j) * 64 + k) * 64 + l := by
      rw [toNat_toUInt8, toNat_toUInt8, toNat_toUInt8]
      omega
    simp only [encodeChars, hn, ih htail]
    rw [show (((i * 64 + j) * 64 + k) * 64 + l) / 262144 = i by omega,
      show (((i * 64 + j) * 64 + k) * 64 + l) / 4096 % 64 = j by omega,
      show (((i * 64 + j) * 64 + k) * 64 + l) / 64 % 64 = k by omega,
      show (((i * 64 + j) * 64 + k) * 64 + l) % 64 = l by omega]
  | case5 => cases h

/-- A text stands for a byte string just where it is the text of that byte string. -/
theorem decode_eq_some_iff {s : String} {b : Bytes} : decode s = some b ↔ s = encode b := by
  constructor
  · intro h
    unfold encode
    rw [encodeChars_of_decodeChars h, String.ofList_toList]
  · rintro rfl
    exact decode_encode b

end AgreedOrder.Base64
