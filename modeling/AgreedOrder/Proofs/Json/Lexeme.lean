/-
  AgreedOrder.Proofs.Json.Lexeme

  The tokens of a document as a grammar: which bytes are a string, a number, a
  word or a mark, with no reader in sight. The reader of one token takes what
  the grammar allows and leaves the rest. A number alone could go on with what
  follows, so that it must end there.

    * `StringBody`, `Numeral`, `Lexeme` — the grammar.
    * `exists_lexeme_of_token?`, `Lexeme.tokens?_append` — the reader against it.
    * `lexeme_whole` — whole numbers as they are written.
-/

import AgreedOrder.Proofs.Json.Token
import Mathlib.Data.List.TakeWhile

namespace AgreedOrder.Json

open Bytes

/-! ## Strings -/

/-- What stands between the quotes of a string, with its pieces. -/
inductive StringBody : Bytes → List Piece → Prop
  | nil : StringBody [] []
  | byte {b : UInt8} {bs : Bytes} {ps : List Piece} (hquote : b ≠ 0x22) (hbackslash : b ≠ 0x5C)
      (hcontrol : ¬b < 0x20) (rest : StringBody bs ps) : StringBody (b :: bs) (.byte b :: ps)
  | letter {e : UInt8} {u : Nat} {bs : Bytes} {ps : List Piece} (hletter : letterEscape? e = some u)
      (rest : StringBody bs ps) : StringBody (0x5C :: e :: bs) (.codeUnit u :: ps)
  | hex {a b c d : UInt8} {u : Nat} {bs : Bytes} {ps : List Piece}
      (hhex : hexEscape? a b c d = some u) (rest : StringBody bs ps) :
      StringBody (0x5C :: 0x75 :: a :: b :: c :: d :: bs) (.codeUnit u :: ps)

theorem StringBody.scan_append {body : Bytes} {ps : List Piece} (h : StringBody body ps)
    (rest : Bytes) : scan (body ++ 0x22 :: rest) = some (ps, rest) := by
  induction h with
  | nil =>
    rw [List.nil_append, scan.eq_def]
    rfl
  | byte hquote hbackslash hcontrol _ ih =>
    rw [List.cons_append, scan_byte hquote hbackslash hcontrol, ih]
    rfl
  | @letter e u bs ps hletter _ ih =>
    have he : e ≠ 0x75 := by
      rintro rfl
      cases hletter
    rw [List.cons_append, List.cons_append, scan_letter hletter he, ih]
    rfl
  | hex hhex _ ih =>
    simp only [List.cons_append]
    rw [scan_hex hhex, ih]
    rfl

/-- What is scanned is the body of a string with its closing quote. -/
theorem exists_stringBody_of_scan {bs rest : Bytes} {ps : List Piece}
    (h : scan bs = some (ps, rest)) :
    ∃ body, bs = body ++ 0x22 :: rest ∧ StringBody body ps := by
  fun_induction scan bs generalizing ps rest with
  | case1 => cases h
  | case2 =>
    cases h
    exact ⟨[], by simp_all, .nil⟩
  | case3 => cases h
  | case4 =>
    rename_i ih
    simp only [Option.bind_eq_bind, Option.bind_eq_some_iff, Option.some.injEq, Prod.mk.injEq,
      Prod.exists] at h
    obtain ⟨u, hhex, ps', rest', hscan, rfl, rfl⟩ := h
    obtain ⟨body, rfl, hbody⟩ := ih hscan
    exact ⟨_, by simp_all, .hex hhex hbody⟩
  | case5 => cases h
  | case6 =>
    rename_i ih
    simp only [Option.bind_eq_bind, Option.bind_eq_some_iff, Option.some.injEq, Prod.mk.injEq,
      Prod.exists] at h
    obtain ⟨u, hletter, ps', rest', hscan, rfl, rfl⟩ := h
    obtain ⟨body, rfl, hbody⟩ := ih hscan
    exact ⟨_, by simp_all, .letter hletter hbody⟩
  | case7 => cases h
  | case8 b bs hquote hbackslash hcontrol ih =>
    simp only [Option.bind_eq_bind, Option.bind_eq_some_iff, Option.some.injEq, Prod.mk.injEq,
      Prod.exists] at h
    obtain ⟨ps', rest', hscan, rfl, rfl⟩ := h
    obtain ⟨body, rfl, hbody⟩ := ih hscan
    exact ⟨_, by simp, .byte hquote hbackslash hcontrol hbody⟩

/-! ## Numbers -/

/-- One digit or more. -/
structure IsDigits (ds : Bytes) : Prop where
  ne_nil : ds ≠ []
  isDigit : ∀ b ∈ ds, isDigit b = true

/-- The whole part of a number: a zero alone, or digits that start with another. -/
structure IsWhole (ds : Bytes) : Prop extends IsDigits ds where
  zero_alone : ds.head? = some 0x30 → ds = [0x30]

/-- The fraction of a number, and whether there is one. -/
inductive IsFraction : Bytes → Bool → Prop
  | absent : IsFraction [] false
  | present {ds : Bytes} (digits : IsDigits ds) : IsFraction (0x2E :: ds) true

/-- The exponent of a number, and whether there is one. -/
inductive IsExponent : Bytes → Bool → Prop
  | absent : IsExponent [] false
  | present {e : UInt8} {sign ds : Bytes} (he : e = 0x65 ∨ e = 0x45)
      (hsign : sign = [] ∨ sign = [0x2B] ∨ sign = [0x2D]) (digits : IsDigits ds) :
      IsExponent (e :: (sign ++ ds)) true

/-- A number without its sign, and its value where it is an integer. -/
inductive Numeral (negative : Bool) : Bytes → Option Int → Prop
  | mk {ds f e : Bytes} {hasFraction hasExponent : Bool} (whole : IsWhole ds)
      (fraction : IsFraction f hasFraction) (exponent : IsExponent e hasExponent) :
      Numeral negative (ds ++ (f ++ e))
        (if hasFraction || hasExponent || (negative && digitsValue ds == 0) then none
          else if negative then some (-digitsValue ds) else some (digitsValue ds))

theorem isDigits_of_digits? {bs ds rest : Bytes} (h : digits? bs = some (ds, rest)) :
    IsDigits ds ∧ bs = ds ++ rest := by
  unfold digits? at h
  split at h
  · cases h
  · rename_i hne
    cases h
    exact ⟨⟨hne, fun b hb => List.mem_takeWhile_imp hb⟩, List.takeWhile_append_dropWhile.symm⟩

theorem isWhole_of_whole? {bs ds rest : Bytes} (h : whole? bs = some (ds, rest)) :
    IsWhole ds ∧ bs = ds ++ rest := by
  unfold whole? at h
  split at h
  · cases h
    exact ⟨⟨⟨List.cons_ne_nil _ _, List.forall_mem_singleton.2 rfl⟩, fun _ => rfl⟩, rfl⟩
  · rename_i hzero
    obtain ⟨hds, rfl⟩ := isDigits_of_digits? h
    refine ⟨⟨hds, fun hhead => ?_⟩, rfl⟩
    -- Digits that start with a zero are not read by this case.
    obtain ⟨tail, rfl⟩ := List.head?_eq_some_iff.1 hhead
    exact absurd rfl (hzero _)

theorem exists_isFraction_of_fraction? {bs rest : Bytes} {has : Bool}
    (h : fraction? bs = some (has, rest)) : ∃ f, IsFraction f has ∧ bs = f ++ rest := by
  unfold fraction? at h
  split at h
  · simp only [Option.map_eq_some_iff, Prod.mk.injEq, Prod.exists] at h
    obtain ⟨ds, r, hdigits, rfl, rfl⟩ := h
    obtain ⟨hds, rfl⟩ := isDigits_of_digits? hdigits
    exact ⟨_, .present hds, rfl⟩
  · cases h
    exact ⟨[], .absent, rfl⟩

theorem exists_isExponent_of_exponent? {bs rest : Bytes} {has : Bool}
    (h : exponent? bs = some (has, rest)) : ∃ e, IsExponent e has ∧ bs = e ++ rest := by
  unfold exponent? at h
  split at h
  · cases h
    exact ⟨[], .absent, rfl⟩
  · rename_i e bs
    split at h
    · rename_i he
      simp only [Option.map_eq_some_iff, Prod.mk.injEq, Prod.exists] at h
      obtain ⟨ds, r, hdigits, rfl, rfl⟩ := h
      obtain ⟨hds, heq⟩ := isDigits_of_digits? hdigits
      split at heq
      · exact absurd (List.append_eq_nil_iff.1 heq.symm).1 hds.ne_nil
      · rename_i s tail
        split at heq
        · rename_i hs
          have hsign : [s] = [] ∨ [s] = [0x2B] ∨ [s] = [0x2D] := by simpa using hs
          exact ⟨_, .present he hsign hds, by rw [heq]; rfl⟩
        · exact ⟨_, .present he (.inl rfl) hds, by rw [heq]; rfl⟩
    · cases h
      exact ⟨[], .absent, rfl⟩

theorem exists_numeral_of_unsigned? {negative : Bool} {bs rest : Bytes} {t : Token}
    (h : unsigned? negative bs = some (t, rest)) :
    ∃ l v, Numeral negative l v ∧ t = .number v ∧ bs = l ++ rest := by
  simp only [unsigned?, Option.bind_eq_bind, Option.bind_eq_some_iff, Option.some.injEq,
    Prod.mk.injEq, Prod.exists] at h
  obtain ⟨ds, r₁, hwhole, f, r₂, hfraction, e, r₃, hexponent, rfl, rfl⟩ := h
  obtain ⟨hds, rfl⟩ := isWhole_of_whole? hwhole
  obtain ⟨f, hf, rfl⟩ := exists_isFraction_of_fraction? hfraction
  obtain ⟨e, he, rfl⟩ := exists_isExponent_of_exponent? hexponent
  exact ⟨_, _, .mk hds hf he, rfl, by simp only [List.append_assoc]⟩

theorem IsWhole.whole?_append {ds rest : Bytes} (h : IsWhole ds)
    (hrest : ∀ b, rest.head? = some b → isDigit b = false) :
    whole? (ds ++ rest) = some (ds, rest) := by
  unfold whole?
  split
  · rename_i tail heq
    obtain ⟨b, ds, rfl⟩ := List.exists_cons_of_ne_nil h.ne_nil
    rw [List.cons_append, List.cons.injEq] at heq
    obtain ⟨rfl, rfl⟩ := heq
    obtain ⟨-, rfl⟩ := List.cons.inj (h.zero_alone rfl)
    rfl
  · exact digits?_append h.ne_nil h.isDigit hrest

theorem IsFraction.fraction?_append {f rest : Bytes} {has : Bool} (h : IsFraction f has)
    (hrest : ∀ b, rest.head? = some b → isDigit b = false ∧ b ≠ 0x2E) :
    fraction? (f ++ rest) = some (has, rest) := by
  cases h with
  | absent =>
    unfold fraction?
    rw [List.nil_append]
    split
    · exact absurd rfl (hrest _ rfl).2
    · rfl
  | present hds =>
    show (digits? (_ ++ rest)).map _ = _
    rw [digits?_append hds.ne_nil hds.isDigit fun b hb => (hrest b hb).1]
    rfl

theorem IsExponent.exponent?_append {e rest : Bytes} {has : Bool} (h : IsExponent e has)
    (hrest : EndsNumber rest) : exponent? (e ++ rest) = some (has, rest) := by
  cases h with
  | absent => exact exponent?_of_ends hrest
  | @present e sign ds he hsign hds =>
    obtain ⟨b, ds, rfl⟩ := List.exists_cons_of_ne_nil hds.ne_nil
    have hb := hds.isDigit b (List.mem_cons_self ..)
    have hdigits : digits? (b :: (ds ++ rest)) = some (b :: ds, rest) :=
      digits?_append hds.ne_nil hds.isDigit fun b hb => (hrest b hb).1
    have hplus : b ≠ 0x2B := by
      rintro rfl
      cases hb
    have hminus : b ≠ 0x2D := by
      rintro rfl
      cases hb
    unfold exponent?
    rcases hsign with rfl | rfl | rfl
    · simp only [List.nil_append, List.cons_append, if_pos he, hplus, hminus, or_self, if_false,
        hdigits, Option.map_some]
    · simp only [List.nil_append, List.cons_append, if_pos he, true_or, if_true, hdigits,
        Option.map_some]
    · simp only [List.nil_append, List.cons_append, if_pos he, or_true, if_true, hdigits,
        Option.map_some]

/-- An exponent and what ends a number starts neither with a digit nor with a point. -/
theorem IsExponent.head_append {e rest : Bytes} {has : Bool} (h : IsExponent e has)
    (hrest : EndsNumber rest) (b : UInt8) (hb : (e ++ rest).head? = some b) :
    isDigit b = false ∧ b ≠ 0x2E := by
  cases h with
  | absent => exact ⟨(hrest b hb).1, (hrest b hb).2.1⟩
  | present he _ _ =>
    cases hb
    rcases he with rfl | rfl
    · decide
    · decide

theorem IsFraction.head_append {f rest : Bytes} {has : Bool} (h : IsFraction f has)
    (hrest : ∀ b, rest.head? = some b → isDigit b = false) (b : UInt8)
    (hb : (f ++ rest).head? = some b) : isDigit b = false := by
  cases h with
  | absent => exact hrest b hb
  | present _ =>
    cases hb
    decide

theorem Numeral.unsigned?_append {negative : Bool} {l rest : Bytes} {v : Option Int}
    (h : Numeral negative l v) (hrest : EndsNumber rest) :
    unsigned? negative (l ++ rest) = some (.number v, rest) := by
  obtain ⟨hds, hf, he⟩ := h
  have hend := he.head_append hrest
  unfold unsigned?
  rw [List.append_assoc, List.append_assoc,
    hds.whole?_append (hf.head_append fun b hb => (hend b hb).1)]
  simp only [Option.bind_eq_bind, Option.bind_some, hf.fraction?_append hend,
    he.exponent?_append hrest]

/-! ## Tokens -/

/-- The bytes of a token. -/
inductive Lexeme : Bytes → Token → Prop
  | mark {b : UInt8} {t : Token} (h : mark? b = some t) : Lexeme [b] t
  | nullWord : Lexeme [0x6E, 0x75, 0x6C, 0x6C] .null
  | trueWord : Lexeme [0x74, 0x72, 0x75, 0x65] (.bool true)
  | falseWord : Lexeme [0x66, 0x61, 0x6C, 0x73, 0x65] (.bool false)
  | positive {l : Bytes} {v : Option Int} (h : Numeral false l v) : Lexeme l (.number v)
  | negative {l : Bytes} {v : Option Int} (h : Numeral true l v) :
      Lexeme (0x2D :: l) (.number v)
  | string {body : Bytes} {ps : List Piece} (h : StringBody body ps) :
      Lexeme (0x22 :: (body ++ [0x22])) (.string (decodePieces ps))

theorem exists_lexeme_of_word? {b : UInt8} {bs rest : Bytes} {t : Token}
    (h : word? b bs = some (t, rest)) : ∃ l, Lexeme (b :: l) t ∧ bs = l ++ rest := by
  have hcut : ∀ {n : Nat} {l : Bytes}, bs.take n = l → bs = l ++ bs.drop n := fun h =>
    h ▸ (List.take_append_drop _ bs).symm
  unfold word? at h
  split at h
  · rename_i hword
    cases h
    exact ⟨_, hword.1 ▸ .nullWord, hcut hword.2⟩
  · split at h
    · rename_i hword
      cases h
      exact ⟨_, hword.1 ▸ .trueWord, hcut hword.2⟩
    · split at h
      · rename_i hword
        cases h
        exact ⟨_, hword.1 ▸ .falseWord, hcut hword.2⟩
      · cases h

/-- The reader of one token takes the bytes of that token and leaves the rest. -/
theorem exists_lexeme_of_token? {b : UInt8} {bs rest : Bytes} {t : Token}
    (h : token? b bs = some (t, rest)) : ∃ l, Lexeme (b :: l) t ∧ bs = l ++ rest := by
  unfold token? at h
  split at h
  · rename_i hmark
    cases h
    exact ⟨[], .mark hmark, rfl⟩
  · split at h
    · rename_i hquote
      subst hquote
      simp only [Option.map_eq_some_iff, Prod.mk.injEq, Prod.exists] at h
      obtain ⟨ps, r, hscan, rfl, rfl⟩ := h
      obtain ⟨body, rfl, hbody⟩ := exists_stringBody_of_scan hscan
      exact ⟨_, .string hbody, by simp⟩
    · split at h
      · rename_i hsign
        subst hsign
        obtain ⟨l, v, hl, rfl, rfl⟩ := exists_numeral_of_unsigned? h
        exact ⟨l, .negative hl, rfl⟩
      · split at h
        · obtain ⟨l, v, hl, rfl, heq⟩ := exists_numeral_of_unsigned? h
          obtain ⟨c, l, rfl⟩ : ∃ c tail, l = c :: tail := by
            cases hl with
            | mk hds _ _ =>
              obtain ⟨c, ds, rfl⟩ := List.exists_cons_of_ne_nil hds.ne_nil
              exact ⟨c, _, rfl⟩
          obtain ⟨rfl, rfl⟩ := List.cons.inj heq
          exact ⟨l, .positive hl, rfl⟩
        · exact exists_lexeme_of_word? h

/-- A mark is not a blank. -/
theorem isSpace_of_mark? {b : UInt8} {t : Token} (h : mark? b = some t) : isSpace b = false := by
  have hall : ∀ b, (mark? b).isSome = true → isSpace b = false :=
    forall_byte (by decide +kernel)
  exact hall b (by rw [h]; rfl)

/-- A token is read where its bytes stand, if it is no number that goes on. -/
theorem Lexeme.tokens?_append {l rest : Bytes} {t : Token} (h : Lexeme l t)
    (hends : ∀ v, t = .number v → EndsNumber rest) :
    tokens? (l ++ rest) = (tokens? rest).map (t :: ·) := by
  cases h with
  | mark hmark => exact tokens?_mark (isSpace_of_mark? hmark) hmark rest
  | nullWord => exact tokens?_cons rfl rfl
  | trueWord => exact tokens?_cons rfl rfl
  | falseWord => exact tokens?_cons rfl rfl
  | positive hl =>
    have hread := hl.unsigned?_append (hends _ rfl)
    cases hl with
    | mk hds hf he =>
      obtain ⟨b, ds, rfl⟩ := List.exists_cons_of_ne_nil hds.ne_nil
      have hb := hds.isDigit b (List.mem_cons_self ..)
      obtain ⟨hspace, hmark, hquote, hsign⟩ := plain_of_isDigit hb
      simp only [List.cons_append] at hread ⊢
      refine tokens?_cons hspace ?_
      unfold token?
      rw [hmark]
      dsimp only
      rw [if_neg hquote, if_neg hsign, if_pos hb, hread]
  | negative hl =>
    refine tokens?_cons rfl ?_
    show unsigned? true _ = _
    exact hl.unsigned?_append (hends _ rfl)
  | string hbody =>
    rw [List.cons_append, List.append_assoc, List.singleton_append]
    refine tokens?_cons rfl ?_
    show (scan _).map _ = _
    rw [hbody.scan_append]
    rfl

/-! ## Written numbers -/

/-- The bytes of the decimal digits of a number. -/
def digitBytes (n : Nat) : Bytes := ofChars (Nat.toDigits 10 n)

theorem toNat_lt_of_isDigit {c : Char} (h : c.isDigit = true) : 48 ≤ c.toNat ∧ c.toNat ≤ 57 := by
  unfold Char.isDigit at h
  rw [Bool.and_eq_true, decide_eq_true_eq, decide_eq_true_eq] at h
  exact h

theorem digitBytes_eq (n : Nat) :
    digitBytes n = (Nat.toDigits 10 n).map fun c => UInt8.ofNat c.toNat := by
  refine ofChars_of_lt fun c hc => ?_
  have := toNat_lt_of_isDigit (Nat.isDigit_of_mem_toDigits (by decide) (by decide) hc)
  omega

theorem isDigit_of_mem_digitBytes {n : Nat} {b : UInt8} (h : b ∈ digitBytes n) :
    isDigit b = true := by
  rw [digitBytes_eq] at h
  obtain ⟨c, hc, rfl⟩ := List.mem_map.1 h
  obtain ⟨hlow, hhigh⟩ :=
    toNat_lt_of_isDigit (Nat.isDigit_of_mem_toDigits (by decide) (by decide) hc)
  have hbyte : (UInt8.ofNat c.toNat).toNat = c.toNat := by
    rw [UInt8.toNat_ofNat', Nat.mod_eq_of_lt (by omega)]
  unfold isDigit
  rw [Bool.and_eq_true, decide_eq_true_eq, decide_eq_true_eq, UInt8.le_iff_toNat_le,
    UInt8.le_iff_toNat_le, hbyte]
  exact ⟨hlow, hhigh⟩

/-- The digits of a number have the number as their value. -/
theorem digitsValue_digitBytes (n : Nat) : digitsValue (digitBytes n) = n := by
  have hfold : ∀ (cs : List Char) (k : Nat), (∀ c ∈ cs, c.isDigit = true) →
      (cs.map fun c => UInt8.ofNat c.toNat).foldl (fun n d => n * 10 + (d.toNat - 0x30)) k
        = Nat.ofDigitChars 10 cs k := by
    intro cs
    induction cs with
    | nil => exact fun k _ => Nat.ofDigitChars_nil.symm
    | cons c cs ih =>
      intro k h
      have hc := toNat_lt_of_isDigit (h c (List.mem_cons_self ..))
      rw [List.map_cons, List.foldl_cons, Nat.ofDigitChars_cons,
        ih _ fun d hd => h d (List.mem_cons_of_mem _ hd), UInt8.toNat_ofNat',
        Nat.mod_eq_of_lt (by omega), Nat.mul_comm]
      rfl
  unfold digitsValue
  rw [digitBytes_eq, hfold _ 0 fun c hc => Nat.isDigit_of_mem_toDigits (by decide) (by decide) hc]
  exact Nat.ofDigitChars_ten_toDigits

/-- The digits of a number other than zero start with another digit than zero. -/
theorem toDigits_head {n : Nat} (h : 0 < n) :
    ∃ c cs, Nat.toDigits 10 n = c :: cs ∧ c ≠ '0' := by
  induction n using Nat.strongRecOn with
  | ind n ih =>
    rw [Nat.toDigits_eq_if (by decide)]
    split
    · refine ⟨_, _, rfl, fun heq => ?_⟩
      have := Nat.digitChar_eq_zero.1 heq
      omega
    · obtain ⟨c, cs, hcs, hc⟩ := ih (n / 10) (by omega) (by omega)
      rw [hcs]
      exact ⟨c, _, rfl, hc⟩

theorem digitBytes_ne_nil (n : Nat) : digitBytes n ≠ [] := by
  rw [digitBytes_eq]
  exact fun h => Nat.toDigits_ne_nil (List.map_eq_nil_iff.1 h)

theorem isWhole_digitBytes (n : Nat) : IsWhole (digitBytes n) where
  ne_nil := digitBytes_ne_nil n
  isDigit _ hb := isDigit_of_mem_digitBytes hb
  zero_alone hzero := by
    rcases Nat.eq_zero_or_pos n with rfl | hn
    · rfl
    -- The digits of another number start with another digit.
    obtain ⟨c, cs, hcs, hc⟩ := toDigits_head hn
    have hmem : c ∈ Nat.toDigits 10 n := by
      rw [hcs]
      exact List.mem_cons_self ..
    have hlt := toNat_lt_of_isDigit (Nat.isDigit_of_mem_toDigits (by decide) (by decide) hmem)
    rw [digitBytes_eq, hcs] at hzero
    have hbyte := congrArg UInt8.toNat (Option.some.inj hzero)
    rw [UInt8.toNat_ofNat', Nat.mod_eq_of_lt (by omega)] at hbyte
    exact absurd (Char.toNat_inj.1 hbyte) hc

/-- The digits of a number are a numeral, of the number or of the one opposite to it. -/
theorem numeral_digitBytes (negative : Bool) (n : Nat) : Numeral negative (digitBytes n)
    (if negative && n == 0 then none else if negative then some (-n) else some n) := by
  have hnumeral : Numeral negative _ _ := .mk (isWhole_digitBytes n) .absent .absent
  rw [digitsValue_digitBytes, List.append_nil, List.append_nil] at hnumeral
  exact hnumeral

theorem lexeme_whole (n : Int) : Lexeme (ofChars (toString n).toList) (.number (some n)) := by
  rw [Int.toString_eq_repr]
  cases n with
  | ofNat n =>
    rw [show (Int.ofNat n).repr = n.repr from rfl, Nat.toList_repr]
    exact .positive (numeral_digitBytes false n)
  | negSucc n =>
    have hrepr : (Int.negSucc n).repr.toList = '-' :: Nat.toDigits 10 (n + 1) := by
      rw [show (Int.negSucc n).repr = "-" ++ (n + 1).repr from rfl, String.toList_append,
        Nat.toList_repr]
      rfl
    rw [hrepr, ofChars_cons_of_lt (by decide)]
    exact .negative (numeral_digitBytes true (n + 1))

end AgreedOrder.Json
