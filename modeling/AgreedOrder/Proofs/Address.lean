/-
  AgreedOrder.Proofs.Address

  Hosts that are addresses themselves. The one spelling of an IPv4 address is
  its written form. The written form of an IPv6 address is read back: the run of
  zeros that it leaves out is as long as the groups that are missing.

    * `IPv4.ofChars?_eq_some_iff` — the texts that are IPv4 addresses.
    * `IPv6.ofChars?_toText` — the written form of an IPv6 address.
    * `Address.exists_ofHost?_iff` — the addresses that a host stands for.
-/

import AgreedOrder.Address
import AgreedOrder.Proofs.Text.Blank
import Mathlib.Data.List.TakeWhile

namespace AgreedOrder

open Text

/-! ## IPv4 -/

namespace IPv4

theorem part?_toDigits (x : UInt8) : part? (Nat.toDigits 10 x.toNat) = some x := by
  have hall : ∀ k : Fin 256, part? (Nat.toDigits 10 k.val) = some (UInt8.ofNat k.val) := by
    decide +kernel
  rw [hall ⟨x.toNat, x.toNat_lt⟩, UInt8.ofNat_toNat]

/-- The texts that are parts are the written numbers of eight bits. -/
theorem part?_eq_some_iff (cs : List Char) (x : UInt8) :
    part? cs = some x ↔ cs = Nat.toDigits 10 x.toNat := by
  constructor
  · intro h
    unfold part? at h
    split at h
    · cases h
    · rename_i hshape
      split at h
      · rename_i m hread
        have hlow : (⟨0, 255⟩ : Text.Range).low ≤ 0 := Int.le_refl 0
        obtain ⟨hdigits, hm, -, hhigh⟩ :=
          (readDecimal_zero_eq_ok_iff (.inl rfl) hlow (by decide) cs m).1 hread
        have hx : x.toNat = Nat.ofDigitChars 10 cs 0 := by
          rw [Int.one_mul] at hm
          have hle : m ≤ 255 := hhigh
          rw [← Option.some.inj h, UInt8.toNat_ofNat', Nat.mod_eq_of_lt] <;> omega
        have hne : cs ≠ [] := by
          rintro rfl
          exact hshape (.inl rfl)
        rw [hx, toDigits_ofDigitChars ⟨hne, hdigits⟩]
        intro hhead
        -- A zero has no digit after it.
        cases cs with
        | nil => exact absurd rfl hne
        | cons c rest =>
          have hrest : rest = [] := by
            cases rest with
            | nil => rfl
            | cons d more => exact absurd (.inr (.inr ⟨by simp, hhead⟩)) hshape
          rw [hrest, Option.some.inj hhead]
      · cases h
  · rintro rfl
    exact part?_toDigits x

/-- The characters of a written address. -/
theorem toList_toText (ip : IPv4) : ip.toText.toList = List.intercalate ['.']
    ([ip.a, ip.b, ip.c, ip.d].map fun x => Nat.toDigits 10 x.toNat) := by
  unfold toText
  rw [String.toList_intercalate, List.map_map]
  simp only [Function.comp_def, toList_toString_nat]
  rfl

theorem ofChars?_toText (ip : IPv4) : ofChars? ip.toText.toList = some ip := by
  have hpieces : splitWhere (· == '.') ip.toText.toList
      = [ip.a, ip.b, ip.c, ip.d].map fun x => Nat.toDigits 10 x.toNat := by
    rw [toList_toText, splitWhere_intercalate rfl (by simp)]
    intro piece hpiece c hc
    obtain ⟨x, -, rfl⟩ := List.mem_map.1 hpiece
    have hdigit := Nat.isDigit_of_mem_toDigits (by decide) (by decide) hc
    rw [beq_eq_false_iff_ne]
    rintro rfl
    exact absurd hdigit (by decide)
  unfold ofChars?
  rw [hpieces]
  simp [part?_toDigits]

/-- A text is an IPv4 address where it is the written form of it. -/
theorem ofChars?_eq_some_iff (cs : List Char) (ip : IPv4) :
    ofChars? cs = some ip ↔ cs = ip.toText.toList := by
  constructor
  · intro h
    unfold ofChars? at h
    split at h
    · rename_i a b c d hpieces
      simp only [Option.bind_eq_bind, Option.bind_eq_some_iff, part?_eq_some_iff] at h
      obtain ⟨xa, rfl, xb, rfl, xc, rfl, xd, rfl, hip⟩ := h
      rw [← intercalate_splitWhere '.' cs, hpieces, toList_toText, ← Option.some.inj hip]
      rfl
    · cases h
  · rintro rfl
    exact ofChars?_toText ip

theorem isBlank_of_mem_toText (ip : IPv4) : ∀ c ∈ ip.toText.toList, isBlank c = false := by
  rw [toList_toText]
  refine forall_mem_intercalate (P := fun c => isBlank c = false) (by decide) ?_
  intro piece hpiece c hc
  obtain ⟨x, -, rfl⟩ := List.mem_map.1 hpiece
  exact isBlank_of_isDigit (Nat.isDigit_of_mem_toDigits (by decide) (by decide) hc)

/-- No IPv4 address holds a colon. -/
theorem ofChars?_of_colon {cs : List Char} (h : ':' ∈ cs) : ofChars? cs = none := by
  cases hread : ofChars? cs with
  | none => rfl
  | some ip =>
    have hno (x : UInt8) : ':' ∉ Nat.toDigits 10 x.toNat := fun hmem =>
      absurd (Nat.isDigit_of_mem_toDigits (by decide) (by decide) hmem) (by decide)
    rw [(ofChars?_eq_some_iff cs ip).1 hread, toList_toText] at h
    simp [List.intercalate_cons_cons, hno] at h

/-- Every IPv4 address holds a point. -/
theorem ofChars?_of_no_point {cs : List Char} (h : '.' ∉ cs) : ofChars? cs = none := by
  have hone : splitWhere (· == '.') cs = [cs] := by
    apply splitWhere_eq_singleton
    intro c hc
    rw [beq_eq_false_iff_ne]
    rintro rfl
    exact h hc
  unfold ofChars?
  rw [hone]

end IPv4

/-! ## Hexadecimal digits -/

theorem hexDigit?_digitChar {d : Nat} (h : d < 16) : hexDigit? (Nat.digitChar d) = some d := by
  have hall : ∀ k : Fin 16, hexDigit? (Nat.digitChar k.val) = some k.val := by decide
  exact hall ⟨d, h⟩

/-- A number is read back from its hexadecimal digits. -/
theorem readHex_toDigits (n : Nat) : readHex 0 (Nat.toDigits 16 n) = some n := by
  induction n using Nat.strongRecOn with
  | ind n ih =>
    rw [Nat.toDigits_eq_if (by decide)]
    split
    · rename_i hlt
      simp [readHex, hexDigit?_digitChar hlt]
    · rename_i hge
      have hlast : n % 16 < 16 := Nat.mod_lt n (by decide)
      rw [readHex_append, ih (n / 16) (by omega), Option.bind_some, readHex,
        hexDigit?_digitChar hlast]
      simp only [readHex, Option.some.injEq]
      omega

/-- Only hexadecimal digits are read. -/
theorem isSome_hexDigit?_of_readHex {cs : List Char} {n m : Nat} (h : readHex n cs = some m) :
    ∀ c ∈ cs, (hexDigit? c).isSome = true := by
  induction cs generalizing n with
  | nil => exact nofun
  | cons c cs ih =>
    rw [readHex] at h
    split at h
    · rename_i d hd
      exact List.forall_mem_cons.2 ⟨by rw [hd]; rfl, ih h⟩
    · cases h

theorem not_mem_toDigits {c : Char} (h : hexDigit? c = none) (n : Nat) :
    c ∉ Nat.toDigits 16 n := by
  intro hmem
  have := isSome_hexDigit?_of_readHex (readHex_toDigits n) c hmem
  rw [h] at this
  cases this

/-- The digits of either case, and their values. -/
theorem range_of_hexDigit? {c : Char} {d : Nat} (h : hexDigit? c = some d) :
    (48 ≤ c.toNat ∧ c.toNat ≤ 57 ∧ c.toNat = 48 + d) ∨
      (97 ≤ c.toNat ∧ c.toNat ≤ 102 ∧ c.toNat = 87 + d) ∨
      65 ≤ c.toNat ∧ c.toNat ≤ 70 ∧ c.toNat = 55 + d := by
  have hbounds {a b : Char} (hab : a ≤ c ∧ c ≤ b) : a.toNat ≤ c.toNat ∧ c.toNat ≤ b.toNat := hab
  unfold hexDigit? at h
  split at h
  · rename_i hc
    obtain ⟨hlow, hhigh⟩ := hbounds hc
    have hd : c.toNat - 48 = d := Option.some.inj h
    exact .inl ⟨hlow, hhigh, by change 48 ≤ _ at hlow; omega⟩
  · split at h
    · rename_i hc
      obtain ⟨hlow, hhigh⟩ := hbounds hc
      have hd : c.toNat - 97 + 10 = d := Option.some.inj h
      exact .inr (.inl ⟨hlow, hhigh, by change 97 ≤ _ at hlow; omega⟩)
    · split at h
      · rename_i hc
        obtain ⟨hlow, hhigh⟩ := hbounds hc
        have hd : c.toNat - 65 + 10 = d := Option.some.inj h
        exact .inr (.inr ⟨hlow, hhigh, by change 65 ≤ _ at hlow; omega⟩)
      · cases h

/-- So many digits make no number beyond their range. -/
theorem readHex_lt {cs : List Char} {n m : Nat} (h : readHex n cs = some m) :
    m < (n + 1) * hexRange cs.length := by
  induction cs generalizing n with
  | nil =>
    have hm := Option.some.inj h
    simp [hexRange]
    omega
  | cons c cs ih =>
    rw [readHex] at h
    split at h
    · rename_i d hd
      have hlt : d < 16 := by
        have := range_of_hexDigit? hd
        omega
      calc m < (n * 16 + d + 1) * hexRange cs.length := ih h
        _ ≤ ((n + 1) * 16) * hexRange cs.length := Nat.mul_le_mul_right _ (by omega)
        _ = (n + 1) * hexRange (c :: cs).length := Nat.mul_assoc ..
    · cases h

theorem isBlank_of_mem_toDigits {c : Char} {n : Nat} (h : c ∈ Nat.toDigits 16 n) :
    isBlank c = false := by
  obtain ⟨d, hd⟩ := Option.isSome_iff_exists.1
    (isSome_hexDigit?_of_readHex (readHex_toDigits n) c h)
  have := range_of_hexDigit? hd
  simp only [isBlank, blankRanges, List.any_cons, List.any_nil, Bool.or_false,
    Bool.or_eq_false_iff, Bool.and_eq_false_iff, decide_eq_false_iff_not]
  omega

/-! ## IPv6 -/

namespace IPv6

theorem group?_toDigits {g : Nat} (h : g < 65536) : group? (Nat.toDigits 16 g) = some g := by
  have hpos : 0 < (Nat.toDigits 16 g).length := Nat.length_toDigits_pos
  have hle : (Nat.toDigits 16 g).length ≤ 4 :=
    (Nat.length_toDigits_le_iff (by decide) (by decide)).2 h
  unfold group?
  rw [if_neg (by omega), readHex_toDigits]

theorem group?_lt {cs : List Char} {g : Nat} (h : group? cs = some g) : g < 65536 := by
  unfold group? at h
  split at h
  · cases h
  · rename_i hshape
    have hlt := readHex_lt h
    have hle : cs.length ≤ 4 := by omega
    have hmono : ∀ k : Fin 5, hexRange k.val ≤ 65536 := by decide
    have := hmono ⟨cs.length, by omega⟩
    dsimp only at this
    omega

/-- The characters of written groups. -/
def chars (gs : List Nat) : List Char := List.intercalate [':'] (gs.map (Nat.toDigits 16))

theorem toList_groupsText (gs : List Nat) : (groupsText gs).toList = chars gs := by
  unfold groupsText chars
  rw [String.toList_intercalate, List.map_map]
  simp only [Function.comp_def, String.toList_ofList]
  rfl

theorem chars_cons_cons (g g' : Nat) (gs : List Nat) :
    chars (g :: g' :: gs) = Nat.toDigits 16 g ++ ':' :: chars (g' :: gs) := by
  simp [chars, List.intercalate_cons_cons]

/-- Written groups start with a digit. -/
theorem chars_cons (g : Nat) (gs : List Nat) : ∃ c cs, chars (g :: gs) = c :: cs ∧ c ≠ ':' := by
  have hdigits : ∃ c cs, Nat.toDigits 16 g = c :: cs ∧ c ≠ ':' := by
    have hcolon := not_mem_toDigits (c := ':') (by decide) g
    cases hcs : Nat.toDigits 16 g with
    | nil => exact absurd hcs Nat.toDigits_ne_nil
    | cons c cs =>
      rw [hcs] at hcolon
      exact ⟨c, cs, rfl, fun heq => hcolon (heq ▸ List.mem_cons_self ..)⟩
  obtain ⟨c, cs, hcs, hc⟩ := hdigits
  cases gs with
  | nil => exact ⟨c, cs, by simpa [chars] using hcs, hc⟩
  | cons g' gs => exact ⟨c, _, by rw [chars_cons_cons, hcs]; rfl, hc⟩

theorem splitWhere_chars {gs : List Nat} (hne : gs ≠ []) :
    splitWhere (· == ':') (chars gs) = gs.map (Nat.toDigits 16) := by
  rw [chars, splitWhere_intercalate rfl (by simpa using hne)]
  intro piece hpiece c hc
  obtain ⟨g, -, rfl⟩ := List.mem_map.1 hpiece
  rw [beq_eq_false_iff_ne]
  rintro rfl
  exact not_mem_toDigits (by decide) g hc

theorem mapM_group?_toDigits {gs : List Nat} (h : ∀ g ∈ gs, g < 65536) :
    (gs.map (Nat.toDigits 16)).mapM group? = some gs := by
  induction gs with
  | nil => rfl
  | cons g gs ih =>
    obtain ⟨hg, hgs⟩ := List.forall_mem_cons.1 h
    rw [List.map_cons, List.mapM_cons, group?_toDigits hg, ih hgs]
    rfl

theorem groups?_chars {gs : List Nat} (h : ∀ g ∈ gs, g < 65536) :
    groups? (chars gs) = some gs := by
  cases gs with
  | nil => rfl
  | cons g gs =>
    obtain ⟨c, cs, hcs, -⟩ := chars_cons g gs
    have hne : (chars (g :: gs)).isEmpty = false := by rw [hcs]; rfl
    rw [groups?, if_neg (by rw [hne]; decide), splitWhere_chars (List.cons_ne_nil g gs),
      mapM_group?_toDigits h]

theorem groupsOrIPv4?_chars {gs : List Nat} (h : ∀ g ∈ gs, g < 65536) :
    groupsOrIPv4? (chars gs) = some gs := by
  cases gs with
  | nil => rfl
  | cons g gs =>
    obtain ⟨c, cs, hcs, -⟩ := chars_cons g gs
    have hne : (chars (g :: gs)).isEmpty = false := by rw [hcs]; rfl
    -- Written groups hold no point.
    have hlast : ((g :: gs).map (Nat.toDigits 16)).getLast?.bind IPv4.ofChars? = none := by
      rw [List.getLast?_map]
      cases (g :: gs).getLast? with
      | none => rfl
      | some last => exact IPv4.ofChars?_of_no_point (not_mem_toDigits (by decide) last)
    rw [groupsOrIPv4?, if_neg (by rw [hne]; decide)]
    dsimp only
    rw [splitWhere_chars (List.cons_ne_nil g gs), hlast, mapM_group?_toDigits h]

/-! ### The gap -/

theorem splitAtGap_cons_of_ne {c : Char} (hc : c ≠ ':') (rest : List Char) :
    splitAtGap (c :: rest) = (splitAtGap rest).map fun r => (c :: r.1, r.2) := by
  rw [splitAtGap]
  rintro rest' rfl
  exact absurd rfl hc

theorem splitAtGap_colon {c : Char} (hc : c ≠ ':') (rest : List Char) :
    splitAtGap (':' :: c :: rest) = (splitAtGap (c :: rest)).map fun r => (':' :: r.1, r.2) := by
  rw [splitAtGap]
  rintro rest' _ heq
  exact absurd (List.cons.inj heq).1 hc

theorem splitAtGap_append {cs : List Char} (h : ':' ∉ cs) (rest : List Char) :
    splitAtGap (cs ++ rest) = (splitAtGap rest).map fun r => (cs ++ r.1, r.2) := by
  induction cs with
  | nil => simp
  | cons c cs ih =>
    have hc : c ≠ ':' := (List.ne_of_not_mem_cons h).symm
    rw [List.cons_append, splitAtGap_cons_of_ne hc, ih (List.not_mem_of_not_mem_cons h),
      Option.map_map]
    rfl

/-- There is no gap within written groups. -/
theorem splitAtGap_chars_append (gs : List Nat) (rest : List Char) :
    splitAtGap (chars gs ++ rest) = (splitAtGap rest).map fun r => (chars gs ++ r.1, r.2) := by
  have hcolon (g : Nat) : ':' ∉ Nat.toDigits 16 g := not_mem_toDigits (by decide) g
  induction gs with
  | nil => simp [chars]
  | cons g gs ih =>
    cases gs with
    | nil => simpa [chars] using splitAtGap_append (hcolon g) rest
    | cons g' gs =>
      obtain ⟨c, cs, hcs, hc⟩ := chars_cons g' gs
      rw [chars_cons_cons, List.append_assoc, splitAtGap_append (hcolon g), List.cons_append, hcs,
        List.cons_append, splitAtGap_colon hc, ← List.cons_append, ← hcs, ih, Option.map_map,
        Option.map_map]
      simp [Function.comp_def]

theorem splitAtGap_chars (gs : List Nat) : splitAtGap (chars gs) = none := by
  have h := splitAtGap_chars_append gs []
  rwa [List.append_nil] at h

theorem splitAtGap_gap (gs : List Nat) (rest : List Char) :
    splitAtGap (chars gs ++ ':' :: ':' :: rest) = some (chars gs, rest) := by
  rw [splitAtGap_chars_append, splitAtGap, Option.map_some, List.append_nil]

theorem takeWhile_zero (gs : List Nat) :
    gs.takeWhile (· == 0) = List.replicate (zeroRun gs) 0 :=
  List.eq_replicate_iff.2 ⟨rfl, fun g hg => by simpa using List.mem_takeWhile_imp hg⟩

/-- What is found as the longest run of zeros is a run of zeros, and starts where it is said to. -/
theorem longestZeroRun_spec (i : Nat) (gs : List Nat) (h : 0 < (longestZeroRun i gs).2) :
    ∃ front back, gs = front ++ List.replicate (longestZeroRun i gs).2 0 ++ back ∧
      (longestZeroRun i gs).1 = i + front.length := by
  induction gs generalizing i with
  | nil => cases h
  | cons g rest ih =>
    simp only [longestZeroRun] at h ⊢
    split
    · -- The run at the front is the longest.
      refine ⟨[], (g :: rest).dropWhile (· == 0), ?_, rfl⟩
      rw [List.nil_append, ← takeWhile_zero, List.takeWhile_append_dropWhile]
    · rename_i hlater
      rw [if_neg hlater] at h
      obtain ⟨front, back, hrest, hstart⟩ := ih (i + 1) h
      refine ⟨g :: front, back, ?_, ?_⟩
      · rw [List.cons_append, List.cons_append, ← hrest]
      · rw [hstart, List.length_cons]
        omega

theorem ofChars?_of_no_gap {cs : List Char} {ip : IPv6} (hgap : splitAtGap cs = none)
    (hread : groupsOrIPv4? cs = some ip.groups) : ofChars? cs = some ip := by
  unfold ofChars?
  rw [hgap]
  dsimp only
  rw [hread, Option.bind_eq_bind, Option.bind_some, dif_pos ip.length_groups]

theorem ofChars?_of_gap {cs before after : List Char} {front back : List Nat} {ip : IPv6}
    (hgap : splitAtGap cs = some (before, after)) (hfront : groups? before = some front)
    (hback : groupsOrIPv4? after = some back) {n : Nat} (hpos : 0 < n)
    (hgroups : ip.groups = front ++ List.replicate n 0 ++ back) : ofChars? cs = some ip := by
  have hlength : front.length + n + back.length = 8 := by
    rw [← ip.length_groups, hgroups, List.length_append, List.length_append,
      List.length_replicate]
  have hmissing : 8 - (front.length + back.length) = n := by omega
  unfold ofChars?
  rw [hgap]
  dsimp only
  simp only [hfront, hback, Option.bind_eq_bind, Option.bind_some]
  rw [if_pos (by omega), hmissing, ← hgroups, dif_pos ip.length_groups]

/-- An IPv4 address is read within IPv6 from its own written form. -/
theorem groupsOrIPv4?_mapped (ip : IPv4) :
    groupsOrIPv4? ('f' :: 'f' :: 'f' :: 'f' :: ':' :: ip.toText.toList)
      = some (0xffff :: ip.groups) := by
  have hcolon : ':' ∉ ip.toText.toList := by
    intro hmem
    have hnone := IPv4.ofChars?_of_colon hmem
    rw [IPv4.ofChars?_toText] at hnone
    cases hnone
  have hpieces : splitWhere (· == ':') (['f', 'f', 'f', 'f'] ++ ':' :: ip.toText.toList)
      = [['f', 'f', 'f', 'f'], ip.toText.toList] := by
    rw [splitWhere_append_cons _ (by simp) rfl, splitWhere_eq_singleton]
    intro c hc
    rw [beq_eq_false_iff_ne]
    rintro rfl
    exact hcolon hc
  have hfront : [['f', 'f', 'f', 'f']].mapM group? = some [0xffff] := by decide
  simp only [List.cons_append, List.nil_append] at hpieces
  simp [groupsOrIPv4?, hpieces, IPv4.ofChars?_toText, hfront]

theorem groups_ofNat {g g' : Nat} (hg : g < 65536) (hg' : g' < 65536) :
    IPv4.groups ⟨UInt8.ofNat (g / 256), UInt8.ofNat (g % 256), UInt8.ofNat (g' / 256),
      UInt8.ofNat (g' % 256)⟩ = [g, g'] := by
  have hcut {k : Nat} (hk : k < 65536) : (UInt8.ofNat (k / 256)).toNat * 256
      + (UInt8.ofNat (k % 256)).toNat = k := by
    rw [UInt8.toNat_ofNat', UInt8.toNat_ofNat']
    omega
  simp only [IPv4.groups, hcut hg, hcut hg']

/-- An address is read back from its written form. -/
theorem ofChars?_toText {ip : IPv6} (h : ∀ g ∈ ip.groups, g < 65536) :
    ofChars? ip.toText.toList = some ip := by
  unfold toText
  split
  · -- An IPv4 address within IPv6: the gap stands for the five zero groups.
    rename_i g g' hgroups
    rw [hgroups] at h
    have hread := groups_ofNat (h g (by simp)) (h g' (by simp))
    have hmark : "::ffff:".toList = [':', ':', 'f', 'f', 'f', 'f', ':'] := rfl
    rw [String.toList_append, hmark]
    have hfront : groups? [] = some [] := rfl
    refine ofChars?_of_gap rfl hfront (groupsOrIPv4?_mapped _) (n := 5) (by decide) ?_
    rw [hread, hgroups]
    rfl
  · dsimp only
    split
    · -- The gap stands for the zeros between the groups that are written.
      rename_i hlong
      obtain ⟨front, back, hgroups, hstart⟩ := longestZeroRun_spec 0 ip.groups (by omega)
      generalize (longestZeroRun 0 ip.groups).1 = start at hstart ⊢
      generalize (longestZeroRun 0 ip.groups).2 = n at hlong hgroups ⊢
      have hfront : ip.groups.take start = front := by
        rw [hgroups, hstart, Nat.zero_add, List.append_assoc, List.take_left']
        rfl
      have hback : ip.groups.drop (start + n) = back := by
        rw [hgroups, hstart, Nat.zero_add]
        exact List.drop_left' (by simp)
      rw [String.toList_append, String.toList_append, toList_groupsText, toList_groupsText,
        hfront, hback, List.append_assoc]
      rw [hgroups] at h
      exact ofChars?_of_gap (splitAtGap_gap front (chars back))
        (groups?_chars fun g hg => h g (by simp [hg]))
        (groupsOrIPv4?_chars fun g hg => h g (by simp [hg])) (by omega) hgroups
    · rw [toList_groupsText]
      exact ofChars?_of_no_gap (splitAtGap_chars _) (groupsOrIPv4?_chars h)

/-! ### Groups of sixteen bits -/

theorem lt_of_mapM_group? {pieces : List (List Char)} {gs : List Nat}
    (h : pieces.mapM group? = some gs) : ∀ g ∈ gs, g < 65536 := by
  induction pieces generalizing gs with
  | nil =>
    cases h
    exact nofun
  | cons piece pieces ih =>
    simp only [List.mapM_cons, Option.bind_eq_bind, Option.bind_eq_some_iff] at h
    obtain ⟨g, hg, gs', hgs, heq⟩ := h
    cases heq
    exact List.forall_mem_cons.2 ⟨group?_lt hg, ih hgs⟩

theorem lt_of_groups? {cs : List Char} {gs : List Nat} (h : groups? cs = some gs) :
    ∀ g ∈ gs, g < 65536 := by
  unfold groups? at h
  split at h
  · cases h
    exact nofun
  · exact lt_of_mapM_group? h

theorem lt_of_mem_groups (ip : IPv4) : ∀ g ∈ ip.groups, g < 65536 := by
  intro g hg
  have ha := ip.a.toNat_lt
  have hb := ip.b.toNat_lt
  have hc := ip.c.toNat_lt
  have hd := ip.d.toNat_lt
  simp only [IPv4.groups, List.mem_cons, List.not_mem_nil, or_false] at hg
  omega

theorem lt_of_groupsOrIPv4? {cs : List Char} {gs : List Nat} (h : groupsOrIPv4? cs = some gs) :
    ∀ g ∈ gs, g < 65536 := by
  unfold groupsOrIPv4? at h
  split at h
  · cases h
    exact nofun
  · dsimp only at h
    split at h
    · simp only [Option.bind_eq_bind, Option.bind_eq_some_iff] at h
      obtain ⟨front, hfront, heq⟩ := h
      cases heq
      exact List.forall_mem_append.2 ⟨lt_of_mapM_group? hfront, lt_of_mem_groups _⟩
    · exact lt_of_mapM_group? h

/-- What is read is an address of sixteen-bit groups. -/
theorem lt_of_ofChars? {cs : List Char} {ip : IPv6} (h : ofChars? cs = some ip) :
    ∀ g ∈ ip.groups, g < 65536 := by
  have hof {gs : List Nat} (hip : (if h : gs.length = 8 then some (⟨gs, h⟩ : IPv6) else none)
      = some ip) : ip.groups = gs := by
    split at hip
    · cases hip
      rfl
    · cases hip
  unfold ofChars? at h
  simp only [Option.bind_eq_bind] at h
  split at h
  · obtain ⟨gs, hgs, hip⟩ := Option.bind_eq_some_iff.1 h
    rw [hof hip]
    exact lt_of_groupsOrIPv4? hgs
  · simp only [Option.bind_eq_some_iff] at h
    obtain ⟨front, hfront, back, hback, hip⟩ := h
    split at hip
    · rw [hof hip]
      refine List.forall_mem_append.2 ⟨List.forall_mem_append.2 ⟨lt_of_groups? hfront, ?_⟩,
        lt_of_groupsOrIPv4? hback⟩
      intro g hg
      rw [List.eq_of_mem_replicate hg]
      decide
    · cases hip

/-- Every written address holds a colon. -/
theorem colon_mem_toText (ip : IPv6) : ':' ∈ ip.toText.toList := by
  unfold toText
  split
  · have hmark : "::ffff:".toList = [':', ':', 'f', 'f', 'f', 'f', ':'] := rfl
    rw [String.toList_append, hmark]
    exact List.mem_cons_self ..
  · dsimp only
    split
    · simp
    · rw [toList_groupsText]
      have hlength := ip.length_groups
      cases hgroups : ip.groups with
      | nil => simp [hgroups] at hlength
      | cons g gs =>
        cases gs with
        | nil => simp [hgroups] at hlength
        | cons g' gs =>
          rw [chars_cons_cons]
          simp

theorem isBlank_of_mem_chars (gs : List Nat) : ∀ c ∈ chars gs, isBlank c = false := by
  refine forall_mem_intercalate (P := fun c => isBlank c = false) (by decide) ?_
  intro piece hpiece c hc
  obtain ⟨g, -, rfl⟩ := List.mem_map.1 hpiece
  exact isBlank_of_mem_toDigits hc

theorem isBlank_of_mem_toText (ip : IPv6) : ∀ c ∈ ip.toText.toList, isBlank c = false := by
  have hgap : ∀ c ∈ "::".toList, isBlank c = false := by simp [isBlank, blankRanges]
  have hmark : ∀ c ∈ "::ffff:".toList, isBlank c = false := by simp [isBlank, blankRanges]
  unfold toText
  split
  · rw [String.toList_append]
    exact List.forall_mem_append.2 ⟨hmark, IPv4.isBlank_of_mem_toText _⟩
  · dsimp only
    split
    · rw [String.toList_append, String.toList_append, toList_groupsText, toList_groupsText]
      exact List.forall_mem_append.2 ⟨List.forall_mem_append.2 ⟨isBlank_of_mem_chars _, hgap⟩,
        isBlank_of_mem_chars _⟩
    · rw [toList_groupsText]
      exact isBlank_of_mem_chars _

end IPv6

/-! ## Hosts -/

namespace Address

/-- The port of an address. -/
def port : Address → UInt16
  | .v4 _ port => port
  | .v6 _ port _ => port

/-- An address is written as a host without its port. -/
def hostText : Address → String
  | .v4 ip _ => ip.toText
  | .v6 ip _ _ => ip.toText

/-- A host stands for an address of the network, not of one link. Its groups are of sixteen bits. -/
def IsHost : Address → Prop
  | .v4 _ _ => True
  | .v6 ip _ scope => scope = 0 ∧ ∀ g ∈ ip.groups, g < 65536

/-- An address is read back from the host that it is written as. -/
theorem ofHost?_hostText {a : Address} (h : a.IsHost) : ofHost? a.hostText a.port = some a := by
  cases a with
  | v4 ip port =>
    unfold ofHost? hostText
    rw [IPv4.ofChars?_toText]
    rfl
  | v6 ip port scope =>
    obtain ⟨rfl, hgroups⟩ := h
    unfold ofHost? hostText
    dsimp only
    rw [IPv4.ofChars?_of_colon ip.colon_mem_toText, IPv6.ofChars?_toText hgroups]
    rfl

/-- A host is written as a word. -/
theorem isWord_hostText {a : Address} (h : a.IsHost) : IsWord a.hostText where
  ne_empty hempty := by
    have hread := ofHost?_hostText h
    rw [hempty] at hread
    cases hread
  not_isBlank := by
    cases a with
    | v4 ip port => exact ip.isBlank_of_mem_toText
    | v6 ip port scope => exact ip.isBlank_of_mem_toText

/-- The addresses that hosts stand for. -/
theorem exists_ofHost?_iff (a : Address) (port : UInt16) :
    (∃ host, ofHost? host port = some a) ↔ a.IsHost ∧ a.port = port := by
  constructor
  · rintro ⟨host, h⟩
    unfold ofHost? at h
    split at h
    · cases h
      exact ⟨trivial, rfl⟩
    · obtain ⟨ip, hip, rfl⟩ := Option.map_eq_some_iff.1 h
      exact ⟨⟨rfl, IPv6.lt_of_ofChars? hip⟩, rfl⟩
  · rintro ⟨hhost, rfl⟩
    exact ⟨a.hostText, ofHost?_hostText hhost⟩

end Address

end AgreedOrder
