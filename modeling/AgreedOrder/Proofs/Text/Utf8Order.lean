/-
  AgreedOrder.Proofs.Text.Utf8Order

  Texts stand in the order of their UTF-8 bytes. Of two characters the smaller
  one has the smaller bytes: either its first byte says that fewer follow, or
  the bytes are the digits of the two code points, the highest first.

    * `utf8EncodeChar_lt` — two characters, whatever follows them.
    * `ofText_lt_ofText` — two texts.
-/

import AgreedOrder.Proofs.Text.Utf8

namespace AgreedOrder.Bytes

/-! ## Bytes -/

theorem cons_lt_cons_of_lt {n m : Nat} (hm : m < 256) (h : n < m) (xs ys : Bytes) :
    UInt8.ofNat n :: xs < UInt8.ofNat m :: ys := by
  refine List.cons_lt_cons_iff.2 (Or.inl (UInt8.lt_iff_toNat_lt.2 ?_))
  rwa [UInt8.toNat_ofNat', UInt8.toNat_ofNat', Nat.mod_eq_of_lt hm,
    Nat.mod_eq_of_lt (Nat.lt_trans h hm)]

/-- Bytes that are equal so far leave it to the next ones. -/
theorem cons_lt_cons_of_le {n m : Nat} {xs ys : Bytes} (hm : m < 256) (h : n ≤ m)
    (rest : n = m → xs < ys) : UInt8.ofNat n :: xs < UInt8.ofNat m :: ys := by
  rcases Nat.lt_or_eq_of_le h with hlt | heq
  · exact cons_lt_cons_of_lt hm hlt xs ys
  · exact List.cons_lt_cons_iff.2 (Or.inr ⟨congrArg UInt8.ofNat heq, rest heq⟩)

/-! ## Characters by the number of their bytes -/

theorem utf8EncodeChar_two {c : Char} (hlow : 127 < c.toNat) (hhigh : c.toNat ≤ 2047) :
    String.utf8EncodeChar c
      = [UInt8.ofNat (c.toNat / 64 % 32 + 192), UInt8.ofNat (c.toNat % 64 + 128)] :=
  (if_neg (Nat.not_le.2 hlow)).trans (if_pos hhigh)

theorem utf8EncodeChar_three {c : Char} (hlow : 2047 < c.toNat) (hhigh : c.toNat ≤ 65535) :
    String.utf8EncodeChar c = [UInt8.ofNat (c.toNat / 4096 % 16 + 224),
      UInt8.ofNat (c.toNat / 64 % 64 + 128), UInt8.ofNat (c.toNat % 64 + 128)] :=
  (if_neg (Nat.not_le.2 (Nat.lt_trans (by decide) hlow))).trans
    ((if_neg (Nat.not_le.2 hlow)).trans (if_pos hhigh))

theorem utf8EncodeChar_four {c : Char} (h : 65535 < c.toNat) :
    String.utf8EncodeChar c = [UInt8.ofNat (c.toNat / 262144 % 8 + 240),
      UInt8.ofNat (c.toNat / 4096 % 64 + 128), UInt8.ofNat (c.toNat / 64 % 64 + 128),
      UInt8.ofNat (c.toNat % 64 + 128)] :=
  (if_neg (Nat.not_le.2 (Nat.lt_trans (by decide) h))).trans
    ((if_neg (Nat.not_le.2 (Nat.lt_trans (by decide) h))).trans (if_neg (Nat.not_le.2 h)))

theorem toNat_lt_of_char (c : Char) : c.toNat < 1114112 := by
  have hvalid : c.toNat < 55296 ∨ 57343 < c.toNat ∧ c.toNat < 1114112 := c.valid
  omega

/-- A first byte is larger the more bytes follow it, and it is the highest of a character's digits
    where the same number follows. -/
theorem utf8EncodeChar_lt {c d : Char} (h : c < d) (xs ys : Bytes) :
    String.utf8EncodeChar c ++ xs < String.utf8EncodeChar d ++ ys := by
  have hlt : c.toNat < d.toNat := UInt32.lt_iff_toNat_lt.1 h
  have hmax := toNat_lt_of_char d
  have hlengths : ∀ e : Char, e.toNat < 128 ∨ (127 < e.toNat ∧ e.toNat ≤ 2047) ∨
      (2047 < e.toNat ∧ e.toNat ≤ 65535) ∨ 65535 < e.toNat := fun e => by omega
  rcases hlengths c with hc | ⟨hc, hc'⟩ | ⟨hc, hc'⟩ | hc
  · rw [utf8EncodeChar_of_lt hc]
    rcases hlengths d with hd | ⟨hd, hd'⟩ | ⟨hd, hd'⟩ | hd
    · rw [utf8EncodeChar_of_lt hd]
      exact cons_lt_cons_of_lt (by omega) hlt xs ys
    · rw [utf8EncodeChar_two hd hd']
      exact cons_lt_cons_of_lt (by omega) (by omega) _ _
    · rw [utf8EncodeChar_three hd hd']
      exact cons_lt_cons_of_lt (by omega) (by omega) _ _
    · rw [utf8EncodeChar_four hd]
      exact cons_lt_cons_of_lt (by omega) (by omega) _ _
  · rw [utf8EncodeChar_two hc hc']
    rcases hlengths d with hd | ⟨hd, hd'⟩ | ⟨hd, hd'⟩ | hd
    · omega
    · rw [utf8EncodeChar_two hd hd']
      refine cons_lt_cons_of_le (by omega) (by omega) fun _ => ?_
      exact cons_lt_cons_of_lt (by omega) (by omega) _ _
    · rw [utf8EncodeChar_three hd hd']
      exact cons_lt_cons_of_lt (by omega) (by omega) _ _
    · rw [utf8EncodeChar_four hd]
      exact cons_lt_cons_of_lt (by omega) (by omega) _ _
  · rw [utf8EncodeChar_three hc hc']
    rcases hlengths d with hd | ⟨hd, hd'⟩ | ⟨hd, hd'⟩ | hd
    · omega
    · omega
    · rw [utf8EncodeChar_three hd hd']
      refine cons_lt_cons_of_le (by omega) (by omega) fun _ => ?_
      refine cons_lt_cons_of_le (by omega) (by omega) fun _ => ?_
      exact cons_lt_cons_of_lt (by omega) (by omega) _ _
    · rw [utf8EncodeChar_four hd]
      exact cons_lt_cons_of_lt (by omega) (by omega) _ _
  · rw [utf8EncodeChar_four hc, utf8EncodeChar_four (Nat.lt_trans hc hlt)]
    refine cons_lt_cons_of_le (by omega) (by omega) fun _ => ?_
    refine cons_lt_cons_of_le (by omega) (by omega) fun _ => ?_
    refine cons_lt_cons_of_le (by omega) (by omega) fun _ => ?_
    exact cons_lt_cons_of_lt (by omega) (by omega) _ _

/-! ## Texts -/

theorem ofChars_lt_ofChars {cs ds : List Char} (h : cs < ds) : ofChars cs < ofChars ds := by
  rw [← List.lex_lt] at h
  induction h with
  | nil =>
    rename_i d ds
    rw [ofChars_cons, ofChars_nil]
    obtain ⟨b, bs, hbs⟩ := List.exists_cons_of_ne_nil (String.utf8EncodeChar_ne_nil (c := d))
    rw [hbs]
    exact List.nil_lt_cons _ _
  | rel hcd => exact utf8EncodeChar_lt hcd _ _
  | cons _ ih =>
    rw [ofChars_cons, ofChars_cons]
    exact List.append_left_lt ih

theorem ofText_lt_ofText {s t : String} (h : s < t) : ofText s < ofText t := by
  rw [ofText_eq, ofText_eq]
  exact ofChars_lt_ofChars (String.lt_iff.1 h)

end AgreedOrder.Bytes
