/-
  AgreedOrder.Proofs.MessageId

  Reading the written form of a message id gives the id. The hyphens stand
  where reading cuts, and the digits between them are those of the number.
  There are so many ids that not all of them are in use.
-/

import AgreedOrder.MessageId
import Mathlib.Data.List.Nodup
import Mathlib.Data.List.Perm.Subperm

namespace AgreedOrder.MessageId

open Text

theorem hexChar_ne {n : Nat} (h : n < 16) :
    hexChar n ≠ '-' ∧ hexChar n ≠ 'u' ∧ hexChar n ≠ 'U' := by
  have hall : ∀ k : Fin 16, hexChar k.val ≠ '-' ∧ hexChar k.val ≠ 'u' ∧ hexChar k.val ≠ 'U' := by
    decide
  exact hall ⟨n, h⟩

theorem ne_of_mem_hexDigits {width n : Nat} {c : Char} (h : c ∈ hexDigits width n) :
    c ≠ '-' ∧ c ≠ 'u' ∧ c ≠ 'U' := by
  induction width generalizing n with
  | zero => cases h
  | succ width ih =>
    rw [hexDigits, List.mem_append, List.mem_singleton] at h
    rcases h with h | rfl
    · exact ih h
    · exact hexChar_ne (Nat.mod_lt n (by decide))

/-- Thirty-two digits in groups, with hyphens between them. -/
def hyphenated (ds : List Char) : List Char :=
  ds.take 8 ++ '-' :: (ds.drop 8).take 4 ++ '-' :: (ds.drop 12).take 4
    ++ '-' :: (ds.drop 16).take 4 ++ '-' :: ds.drop 20

theorem splitWhere_hyphenated {ds : List Char} (h : ∀ c ∈ ds, c ≠ '-') :
    splitWhere (· == '-') (hyphenated ds) = [ds.take 8, (ds.drop 8).take 4, (ds.drop 12).take 4,
      (ds.drop 16).take 4, ds.drop 20] := by
  have hfirst : ∀ c ∈ ds.take 8, (c == '-') = false := fun c hc =>
    beq_eq_false_iff_ne.2 (h c (List.mem_of_mem_take hc))
  have htake : ∀ n k, ∀ c ∈ (ds.drop n).take k, (c == '-') = false := fun n k c hc =>
    beq_eq_false_iff_ne.2 (h c (List.mem_of_mem_drop (List.mem_of_mem_take hc)))
  have hlast : ∀ c ∈ ds.drop 20, (c == '-') = false := fun c hc =>
    beq_eq_false_iff_ne.2 (h c (List.mem_of_mem_drop hc))
  unfold hyphenated
  simp only [List.append_assoc, List.cons_append]
  rw [splitWhere_append_cons _ hfirst rfl, splitWhere_append_cons _ (htake 8 4) rfl,
    splitWhere_append_cons _ (htake 12 4) rfl, splitWhere_append_cons _ (htake 16 4) rfl,
    splitWhere_eq_singleton hlast]

theorem flatten_groups {ds : List Char} :
    [ds.take 8, (ds.drop 8).take 4, (ds.drop 12).take 4, (ds.drop 16).take 4, ds.drop 20].flatten
      = ds := by
  have hcut : ∀ n k, (ds.drop n).take k ++ ds.drop (n + k) = ds.drop n := by
    intro n k
    rw [← List.drop_drop, List.take_append_drop]
  have h₀ := hcut 0 8
  rw [List.drop_zero, Nat.zero_add] at h₀
  simp only [List.flatten_cons, List.flatten_nil, List.append_nil]
  rw [hcut 16 4, hcut 12 4, hcut 8 4, h₀]

theorem ofGroups?_hyphenated {ds : List Char} (hlength : ds.length = 32) (h : ∀ c ∈ ds, c ≠ '-') :
    ofGroups? (hyphenated ds) = ofDigits? ds := by
  unfold ofGroups?
  dsimp only
  rw [splitWhere_hyphenated h, flatten_groups]
  have hgroups : [ds.take 8, (ds.drop 8).take 4, (ds.drop 12).take 4, (ds.drop 16).take 4,
      ds.drop 20].map List.length = groupLengths := by
    simp [hlength, groupLengths]
  rw [if_pos hgroups]

/-- Reading the written form of an id gives the id. -/
@[simp] theorem ofText?_toText (id : MessageId) : ofText? id.toText = some id := by
  have hlength : (hexDigits 32 id.bits.toNat).length = 32 := length_hexDigits ..
  have hchars : id.toText.toList = hyphenated (hexDigits 32 id.bits.toNat) := by
    unfold toText hyphenated
    rw [String.toList_ofList]
  have hlength' : (hyphenated (hexDigits 32 id.bits.toNat)).length = 36 := by
    simp [hyphenated, hlength]
  -- The first character tells the written form from the one with a scheme.
  have hhead : ∀ cs, (hyphenated (hexDigits 32 id.bits.toNat)).take 9 = cs →
      ∃ c ∈ hexDigits 32 id.bits.toNat, cs.head? = some c := by
    rintro cs rfl
    cases hds : hexDigits 32 id.bits.toNat with
    | nil => rw [hds] at hlength; cases hlength
    | cons c ds => exact ⟨c, List.mem_cons_self .., rfl⟩
  unfold ofText?
  dsimp only
  rw [hchars, if_neg (by omega), if_neg (by omega), if_neg ?_,
    ofGroups?_hyphenated hlength fun c hc => (ne_of_mem_hexDigits hc).1]
  · unfold ofDigits?
    rw [if_pos hlength, readHex_hexDigits]
    have hrange : hexRange 32 = 2 ^ 128 := by decide
    rw [hrange, Nat.zero_mul, Nat.zero_add, Nat.mod_eq_of_lt id.bits.isLt, Option.map_some,
      BitVec.ofNat_toNat, BitVec.setWidth_eq]
  · rintro (hscheme | hscheme)
    · obtain ⟨c, hc, heq⟩ := hhead _ hscheme
      cases heq
      exact (ne_of_mem_hexDigits hc).2.1 rfl
    · obtain ⟨c, hc, heq⟩ := hhead _ hscheme
      cases heq
      exact (ne_of_mem_hexDigits hc).2.2 rfl

/-- How many ids there are. -/
def supply : Nat := 340282366920938463463374607431768211456

/-- There is an id that is not in use as long as not all of them are. -/
theorem exists_fresh {α : Type} {used : List α} (idOf : α → MessageId)
    (h : used.length < supply) : ∃ id, ∀ x ∈ used, idOf x ≠ id := by
  by_contra hall
  push Not at hall
  unfold supply at h
  -- One more of the first ids than are in use would all be in use.
  have hnodup : ((List.range (used.length + 1)).map fun k =>
      (⟨BitVec.ofNat 128 k⟩ : MessageId)).Nodup := by
    refine List.Nodup.map_on (fun j hj k hk heq => ?_) List.nodup_range
    have hbits := congrArg (fun id : MessageId => id.bits.toNat) heq
    rw [List.mem_range] at hj hk
    simp only [BitVec.toNat_ofNat] at hbits
    omega
  have hused (id : MessageId) : id ∈ used.map idOf := List.mem_map.2 (hall id)
  have hle := (List.subperm_of_subset hnodup fun id _ => hused id).length_le
  simp only [List.length_map, List.length_range] at hle
  omega

end AgreedOrder.MessageId
