/-
  AgreedOrder.Proofs.Json.Printable

  The text of a record stands on one line: it holds no control character,
  whatever its fields hold. A control character in a field is escaped, and the
  escape itself is made of printable characters. The same holds of its UTF-8
  bytes, so a record is never cut where lines are cut.
-/

import AgreedOrder.Json.Record
import AgreedOrder.Proofs.Json.Quoted

namespace AgreedOrder.Json

open Bytes

/-- No character is a control character. -/
def Printable (cs : List Char) : Prop := ∀ c ∈ cs, 0x20 ≤ c.toNat

instance (cs : List Char) : Decidable (Printable cs) := List.decidableBAll _ cs

section Lists

variable {cs ds : List Char}

@[simp] theorem printable_nil : Printable [] := by simp [Printable]

@[simp] theorem printable_cons {c : Char} :
    Printable (c :: cs) ↔ 0x20 ≤ c.toNat ∧ Printable cs := by simp [Printable]

@[simp] theorem printable_append : Printable (cs ++ ds) ↔ Printable cs ∧ Printable ds := by
  simp [Printable, or_imp, forall_and]

end Lists

/-! ## Scalars -/

theorem printable_escapeChar (c : Char) : Printable (escapeChar c) := by
  have hhex : ∀ k : Fin 32, Printable (Text.hexDigits 4 k.val) := by decide +kernel
  unfold escapeChar
  -- Each of the short escapes is two characters long.
  iterate 7
    split
    · decide
  split
  · rename_i hlt
    rw [printable_cons, printable_cons]
    exact ⟨by decide, by decide, hhex ⟨c.toNat, hlt⟩⟩
  · rename_i hlarge
    exact printable_cons.2 ⟨Nat.not_lt.1 hlarge, printable_nil⟩

theorem printable_quoteChars (s : String) : Printable (quoteChars s) := by
  have hinner : Printable (s.toList.flatMap escapeChar) := by
    intro d hd
    obtain ⟨c, -, hc⟩ := List.mem_flatMap.1 hd
    exact printable_escapeChar c d hc
  rw [quoteChars, printable_cons, printable_append]
  exact ⟨by decide, hinner, by simp⟩

theorem printable_toDigits (n : Nat) : Printable (Nat.toDigits 10 n) := by
  intro c hc
  have hdigit : c.isDigit = true := Nat.isDigit_of_mem_toDigits (by decide) (by decide) hc
  unfold Char.isDigit at hdigit
  rw [Bool.and_eq_true, decide_eq_true_eq, decide_eq_true_eq] at hdigit
  exact Nat.le_trans (by decide) hdigit.1

theorem printable_whole (n : Int) : Printable (toString n).toList := by
  rw [Int.toString_eq_repr]
  cases n with
  | ofNat n =>
    rw [show (Int.ofNat n).repr = n.repr from rfl, Nat.toList_repr]
    exact printable_toDigits n
  | negSucc n =>
    rw [show (Int.negSucc n).repr = "-" ++ (n + 1).repr from rfl, String.toList_append,
      Nat.toList_repr, printable_append]
    exact ⟨by simp, printable_toDigits (n + 1)⟩

theorem Scalar.printable_chars (x : Scalar) : Printable x.chars := by
  cases x with
  | text s => exact printable_quoteChars s
  | whole n => exact printable_whole n

/-! ## Records -/

theorem printable_memberChars (m : String × Scalar) : Printable (memberChars m) := by
  rw [memberChars, printable_append, printable_cons]
  exact ⟨printable_quoteChars m.1, by decide, m.2.printable_chars⟩

theorem printable_objectChars (members : List (String × Scalar)) :
    Printable (objectChars members) := by
  have hinner : Printable (List.intercalate [','] (members.map memberChars)) := by
    induction members with
    | nil => simp [List.intercalate]
    | cons m ms ih =>
      cases ms with
      | nil => simpa [List.intercalate] using printable_memberChars m
      | cons n ms =>
        simp only [List.map_cons, List.intercalate_cons_cons] at ih ⊢
        rw [printable_append, printable_append]
        exact ⟨⟨printable_memberChars m, by simp⟩, ih⟩
  rw [objectChars, printable_cons, printable_append]
  exact ⟨by decide, hinner, by simp⟩

namespace Record

variable {α : Type} [Record α] (a : α)

/-- A record stands on one line. -/
theorem printable_encodeText : Printable (encodeText a).toList := by
  rw [encodeText, String.toList_ofList]
  exact printable_objectChars _

/-- The bytes of a record are printable too. -/
theorem le_of_mem_encode {b : UInt8} (h : b ∈ encode a) : 0x20 ≤ b.toNat := by
  rw [encode, ofText_eq, ofChars] at h
  obtain ⟨c, hc, hb⟩ := List.mem_flatMap.1 h
  have hprintable := printable_encodeText a c hc
  by_cases hlt : c.toNat < 128
  · rw [utf8EncodeChar_of_lt hlt, List.mem_singleton] at hb
    rw [hb, UInt8.toNat_ofNat', Nat.mod_eq_of_lt (by omega)]
    exact hprintable
  · exact Nat.le_trans (by decide) (le_of_mem_utf8EncodeChar (Nat.not_lt.1 hlt) hb)

theorem lineFeed_not_mem_encode : (0x0A : UInt8) ∉ encode a :=
  fun h => absurd (le_of_mem_encode a h) (by decide)

end Record

end AgreedOrder.Json
