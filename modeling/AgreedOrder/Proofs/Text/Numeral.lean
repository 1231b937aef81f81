/-
  AgreedOrder.Proofs.Text.Numeral

  Decimal numerals. A numeral is a run of digits, with a sign before it or
  without one; what it stands for does not depend on how it is read. Reading
  gives up at the first digit that leaves the range, which is the same as
  reading all of them and looking at the number: digits only ever move it away
  from zero.

    * `IsDigits`, `Spells` — the numerals, and what they stand for.
    * `numeral_eq_ok_iff` — the numerals of a range, and no other text, are read.
    * `spells_toString` — numbers are written as numerals.
-/

import AgreedOrder.Text.Digit

namespace AgreedOrder.Text

/-! ## Numerals -/

/-- A run of decimal digits, one at least. -/
structure IsDigits (ds : List Char) : Prop where
  ne_nil : ds ≠ []
  isDigit : ∀ c ∈ ds, c.isDigit = true

/-- The number that a numeral stands for. There is a minus sign only among signed numbers. -/
inductive Spells (signed : Bool) : List Char → Int → Prop
  | plain {ds : List Char} (digits : IsDigits ds) : Spells signed ds (Nat.ofDigitChars 10 ds 0)
  | plus {ds : List Char} (digits : IsDigits ds) :
      Spells signed ('+' :: ds) (Nat.ofDigitChars 10 ds 0)
  | minus {ds : List Char} (digits : IsDigits ds) (issigned : signed = true) :
      Spells signed ('-' :: ds) (-(Nat.ofDigitChars 10 ds 0 : Int))

theorem isDigits_toDigits (n : Nat) : IsDigits (Nat.toDigits 10 n) where
  ne_nil := Nat.toDigits_ne_nil
  isDigit _ hc := Nat.isDigit_of_mem_toDigits (by decide) (by decide) hc

theorem toList_toString_nat (n : Nat) : (toString n).toList = Nat.toDigits 10 n := by
  rw [Nat.toString_eq_repr, Nat.toList_repr]

theorem spells_toString_nat (signed : Bool) (n : Nat) : Spells signed (toString n).toList n := by
  have h : Spells signed (Nat.toDigits 10 n) (Nat.ofDigitChars 10 (Nat.toDigits 10 n) 0) :=
    .plain (isDigits_toDigits n)
  rw [Nat.ofDigitChars_ten_toDigits] at h
  rwa [toList_toString_nat]

/-- A number is written as a numeral for it. -/
theorem spells_toString (n : Int) : Spells true (toString n).toList n := by
  cases n with
  | ofNat n => exact spells_toString_nat true n
  | negSucc n =>
    have hlist : (toString (Int.negSucc n)).toList = '-' :: Nat.toDigits 10 (n + 1) := by
      rw [Int.toString_eq_repr, show (Int.negSucc n).repr = "-" ++ (n + 1).repr from rfl,
        String.toList_append, Nat.toList_repr]
      rfl
    have h : Spells true ('-' :: Nat.toDigits 10 (n + 1))
        (-(Nat.ofDigitChars 10 (Nat.toDigits 10 (n + 1)) 0 : Int)) :=
      .minus (isDigits_toDigits (n + 1)) rfl
    rw [Nat.ofDigitChars_ten_toDigits] at h
    rw [hlist]
    exact h

/-! ## Reading digits -/

theorem toNat_of_isDigit {c : Char} (h : c.isDigit = true) : 48 ≤ c.toNat ∧ c.toNat ≤ 57 := by
  unfold Char.isDigit at h
  rw [Bool.and_eq_true, decide_eq_true_eq, decide_eq_true_eq] at h
  exact h

theorem digit?_of_isDigit {c : Char} (h : c.isDigit = true) :
    digit? c = some (c.toNat - '0'.toNat) := by
  unfold Char.isDigit at h
  rw [Bool.and_eq_true, decide_eq_true_eq, decide_eq_true_eq] at h
  exact if_pos h

theorem digit?_of_not_isDigit {c : Char} (h : c.isDigit = false) : digit? c = none := by
  unfold Char.isDigit at h
  rw [Bool.and_eq_false_iff, decide_eq_false_iff_not, decide_eq_false_iff_not] at h
  exact if_neg fun hc => h.elim (absurd hc.1) (absurd hc.2)

/-- Digits never make a number smaller. -/
theorem le_ofDigitChars (cs : List Char) (n : Nat) : n ≤ Nat.ofDigitChars 10 cs n := by
  induction cs generalizing n with
  | nil => exact Nat.le_of_eq Nat.ofDigitChars_nil.symm
  | cons c cs ih =>
    rw [Nat.ofDigitChars_cons]
    have := ih (10 * n + (c.toNat - '0'.toNat))
    omega

/-! ## Digits without leading zeros -/

theorem digitChar_of_isDigit {c : Char} (h : c.isDigit = true) :
    Nat.digitChar (c.toNat - '0'.toNat) = c := by
  obtain ⟨hlow, hhigh⟩ := toNat_of_isDigit h
  have hzero : '0'.toNat = 48 := rfl
  apply Char.toNat_inj.1
  rw [Nat.toNat_digitChar_of_lt_ten (by omega)]
  omega

/-- Digits after a number that is not zero are the last digits of the number they make with it. -/
theorem toDigits_append_of_isDigit {n : Nat} (hn : 0 < n) {cs : List Char}
    (h : ∀ c ∈ cs, c.isDigit = true) :
    Nat.toDigits 10 n ++ cs = Nat.toDigits 10 (Nat.ofDigitChars 10 cs n) := by
  induction cs generalizing n with
  | nil => rw [Nat.ofDigitChars_nil, List.append_nil]
  | cons c cs ih =>
    obtain ⟨hc, hcs⟩ := List.forall_mem_cons.1 h
    have hlt : c.toNat - '0'.toNat < 10 := by
      have := toNat_of_isDigit hc
      have hzero : '0'.toNat = 48 := rfl
      omega
    have hone : Nat.toDigits 10 (c.toNat - '0'.toNat) = [c] := by
      rw [Nat.toDigits_of_lt_base hlt, digitChar_of_isDigit hc]
    rw [Nat.ofDigitChars_cons, ← ih (by omega) hcs,
      ← Nat.toDigits_append_toDigits (by decide) hn hlt, hone, List.append_assoc]
    rfl

/-- Digits of which the first is zero only if it is the only one are those that their number is
    written with. -/
theorem toDigits_ofDigitChars {ds : List Char} (h : IsDigits ds)
    (hzero : ds.head? = some '0' → ds = ['0']) :
    Nat.toDigits 10 (Nat.ofDigitChars 10 ds 0) = ds := by
  obtain ⟨hne, hdigits⟩ := h
  cases ds with
  | nil => exact absurd rfl hne
  | cons c cs =>
    obtain ⟨hc, hcs⟩ := List.forall_mem_cons.1 hdigits
    by_cases hfirst : c = '0'
    · subst hfirst
      rw [hzero rfl]
      decide
    · have hbounds := toNat_of_isDigit hc
      have hvalue : '0'.toNat = 48 := rfl
      have hpos : 0 < c.toNat - '0'.toNat := by
        have hne : c.toNat ≠ '0'.toNat := fun heq => hfirst (Char.toNat_inj.1 heq)
        omega
      rw [Nat.ofDigitChars_cons, Nat.mul_zero, Nat.zero_add,
        ← toDigits_append_of_isDigit hpos hcs, Nat.toDigits_of_lt_base (by omega),
        digitChar_of_isDigit hc]
      rfl

section Reading

variable {range : Range} {sign : Int}

/-- Digits are read onto a number where the number they make lies in the range. -/
theorem readDecimal_eq_ok_iff (hsign : sign = 1 ∨ sign = -1) (hlow : range.low ≤ 0)
    (hhigh : 0 ≤ range.high) {n : Nat} (hn : range.low ≤ sign * n ∧ sign * n ≤ range.high)
    (cs : List Char) (m : Int) : readDecimal range sign (sign * n) cs = .ok m ↔
      (∀ c ∈ cs, c.isDigit = true) ∧ m = sign * (Nat.ofDigitChars 10 cs n : Nat) ∧
        range.low ≤ m ∧ m ≤ range.high := by
  induction cs generalizing n with
  | nil =>
    rw [readDecimal, Nat.ofDigitChars_nil, Except.ok.injEq]
    constructor
    · rintro rfl
      exact ⟨nofun, rfl, hn⟩
    · rintro ⟨-, rfl, -⟩
      rfl
  | cons c cs ih =>
    rw [readDecimal]
    cases hc : c.isDigit with
    | false =>
      rw [digit?_of_not_isDigit hc]
      simp [hc]
    | true =>
      rw [digit?_of_isDigit hc]
      -- The next number is the sign times one that the digits after it cannot make smaller.
      have hnext : sign * (n : Int) * 10 + sign * ((c.toNat - '0'.toNat : Nat) : Int)
          = sign * ((10 * n + (c.toNat - '0'.toNat) : Nat) : Int) := by
        rw [Int.natCast_add, Int.natCast_mul, Int.mul_add, Int.mul_assoc, Int.mul_comm (n : Int)]
        rfl
      have hmono := le_ofDigitChars cs (10 * n + (c.toNat - '0'.toNat))
      dsimp only
      rw [hnext, Nat.ofDigitChars_cons]
      generalize 10 * n + (c.toNat - '0'.toNat) = k at hmono ⊢
      split
      · rename_i htop
        refine iff_of_false nofun ?_
        rintro ⟨-, rfl, -, hle⟩
        rcases hsign with rfl | rfl <;> omega
      · split
        · rename_i hbottom
          refine iff_of_false nofun ?_
          rintro ⟨-, rfl, hle, -⟩
          rcases hsign with rfl | rfl <;> omega
        · rename_i htop hbottom
          rw [ih ⟨Int.not_lt.1 hbottom, Int.not_lt.1 htop⟩, List.forall_mem_cons, hc]
          simp

theorem readDecimal_zero_eq_ok_iff (hsign : sign = 1 ∨ sign = -1) (hlow : range.low ≤ 0)
    (hhigh : 0 ≤ range.high) (cs : List Char) (m : Int) : readDecimal range sign 0 cs = .ok m ↔
      (∀ c ∈ cs, c.isDigit = true) ∧ m = sign * (Nat.ofDigitChars 10 cs 0 : Nat) ∧
        range.low ≤ m ∧ m ≤ range.high := by
  have hzero : sign * ((0 : Nat) : Int) = 0 := Int.mul_zero sign
  have hrange : range.low ≤ sign * ((0 : Nat) : Int) ∧ sign * ((0 : Nat) : Int) ≤ range.high := by
    rw [hzero]
    exact ⟨hlow, hhigh⟩
  have h := readDecimal_eq_ok_iff hsign hlow hhigh hrange cs m
  rwa [hzero] at h

/-! ## Reading numerals -/

/-- What has no sign is read as digits. -/
theorem numeral_of_unsigned {c : Char} (cs : List Char) (hplus : c ≠ '+') (hminus : c ≠ '-') :
    numeral range (c :: cs) = readDecimal range 1 0 (c :: cs) := by
  unfold numeral
  split <;> simp_all

theorem numeral_of_digits {ds : List Char} (h : IsDigits ds) :
    numeral range ds = readDecimal range 1 0 ds := by
  obtain ⟨hne, hdigits⟩ := h
  cases ds with
  | nil => exact absurd rfl hne
  | cons c cs =>
    have hc := hdigits c List.mem_cons_self
    refine numeral_of_unsigned cs ?_ ?_ <;> rintro rfl <;> exact absurd hc (by decide)

theorem numeral_plus {ds : List Char} (h : ds ≠ []) :
    numeral range ('+' :: ds) = readDecimal range 1 0 ds := by
  unfold numeral
  split <;> simp_all

theorem numeral_minus {ds : List Char} (h : ds ≠ []) : numeral range ('-' :: ds)
    = if range.low < 0 then readDecimal range (-1) 0 ds else .error .invalidDigit := by
  unfold numeral
  split <;> simp_all

/-- The texts that are read as a number of a range are the numerals for it. -/
theorem numeral_eq_ok_iff (hlow : range.low ≤ 0) (hhigh : 0 ≤ range.high) (cs : List Char)
    (m : Int) : numeral range cs = .ok m ↔
      Spells (decide (range.low < 0)) cs m ∧ range.low ≤ m ∧ m ≤ range.high := by
  have hread (ds : List Char) (m : Int) := readDecimal_zero_eq_ok_iff (.inl rfl) hlow hhigh ds m
  have hreadMinus (ds : List Char) (m : Int) :=
    readDecimal_zero_eq_ok_iff (.inr rfl) hlow hhigh ds m
  simp only [Int.one_mul, Int.neg_mul] at hread hreadMinus
  constructor
  · intro h
    unfold numeral at h
    split at h
    · cases h
    · cases h
    · rename_i ds hne
      obtain ⟨hdigits, rfl, hrange⟩ := (hread ds m).1 h
      exact ⟨.plus ⟨hne, hdigits⟩, hrange⟩
    · cases h
    · rename_i ds hne
      split at h
      · rename_i hneg
        obtain ⟨hdigits, rfl, hrange⟩ := (hreadMinus ds m).1 h
        exact ⟨.minus ⟨hne, hdigits⟩ (decide_eq_true hneg), hrange⟩
      · cases h
    · rename_i hne _ _ _ _
      obtain ⟨hdigits, rfl, hrange⟩ := (hread cs m).1 h
      exact ⟨.plain ⟨hne, hdigits⟩, hrange⟩
  · rintro ⟨hspells, hrange⟩
    cases hspells with
    | plain hds =>
      rw [numeral_of_digits hds]
      exact (hread _ _).2 ⟨hds.isDigit, rfl, hrange⟩
    | plus hds =>
      rw [numeral_plus hds.ne_nil]
      exact (hread _ _).2 ⟨hds.isDigit, rfl, hrange⟩
    | minus hds hneg =>
      rw [numeral_minus hds.ne_nil, if_pos (of_decide_eq_true hneg)]
      exact (hreadMinus _ _).2 ⟨hds.isDigit, rfl, hrange⟩

theorem numeral?_eq_some_iff (hlow : range.low ≤ 0) (hhigh : 0 ≤ range.high) (s : String)
    (m : Int) : numeral? range s = some m ↔
      Spells (decide (range.low < 0)) s.toList m ∧ range.low ≤ m ∧ m ≤ range.high := by
  rw [← numeral_eq_ok_iff hlow hhigh]
  unfold numeral?
  cases numeral range s.toList with
  | ok n => simp [Except.toOption]
  | error e => simp [Except.toOption]

end Reading

end AgreedOrder.Text
