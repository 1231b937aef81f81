/-
  AgreedOrder.Proofs.HoldQueue.Order

  The order of entries in terms of their fields: a smaller number stands
  first, and an agreed number stands behind an equal proposed one. It is a
  total order, and entries that it does not tell apart are equal.

    * `Precedes` — the order, field by field.
    * `compare_eq_lt_iff` — it is the one that entries are compared by.
-/

import AgreedOrder.HoldQueue
import Mathlib.Order.Defs.Unbundled

namespace AgreedOrder.HoldEntry

variable {a b c : HoldEntry}

theorem lt_of_number_lt (h : a.number < b.number) : compare a b = .lt := by
  rw [compare_def, order, compareLex, compareOn, Std.compare_eq_lt.2 h]
  rfl

/-- A proposed number stands before an equal one that is agreed. -/
theorem lt_of_open_of_agreed (hnumber : a.number ≤ b.number) (ha : a.agreed = false)
    (hb : b.agreed = true) : compare a b = .lt := by
  by_cases hlt : a.number < b.number
  · exact lt_of_number_lt hlt
  · have heq : a.number = b.number :=
      UInt64.le_antisymm hnumber (UInt64.not_lt.1 hlt)
    rw [compare_def, order, compareLex, compareOn, heq, Std.ReflOrd.compare_self]
    rw [Ordering.then, compareLex, compareOn, ha, hb]
    rfl

theorem lt_trans (hab : compare a b = .lt) (hbc : compare b c = .lt) : compare a c = .lt :=
  Std.TransCmp.lt_trans hab hbc

theorem not_lt_self (a : HoldEntry) : compare a a ≠ .lt := by
  rw [Std.ReflOrd.compare_self]
  exact nofun

theorem not_lt_of_lt (h : compare a b = .lt) : compare b a ≠ .lt := by
  rw [Std.OrientedCmp.gt_of_lt h]
  exact nofun

/-- Of two different entries one stands before the other. -/
theorem lt_or_lt_of_ne (h : a ≠ b) : compare a b = .lt ∨ compare b a = .lt := by
  cases hc : compare a b with
  | lt => exact Or.inl rfl
  | eq => exact absurd (Std.LawfulEqCmp.eq_of_compare hc) h
  | gt => exact Or.inr (Std.OrientedCmp.lt_of_gt hc)

/-! ## Field by field -/

/-- One entry stands before another: by number, then not agreed before agreed, then by process, and
    then by id. -/
def Precedes (a b : HoldEntry) : Prop :=
  a.number < b.number ∨ a.number = b.number ∧
    (a.agreed < b.agreed ∨ a.agreed = b.agreed ∧
      (a.process < b.process ∨ a.process = b.process ∧ a.id.bits < b.id.bits))

instance : DecidableRel Precedes := fun _ _ => inferInstanceAs (Decidable (_ ∨ _))

theorem compare_eq_lt_iff : compare a b = .lt ↔ a.Precedes b := by
  have hagreed (x y : Bool) : compare x y = .lt ↔ x < y := by cases x <;> cases y <;> decide
  have hprocess (x y : NodeId) : compare x y = .lt ↔ x < y := compareOfLessAndEq_eq_lt
  have hid (x y : MessageId) : compare x y = .lt ↔ x.bits < y.bits := compareOfLessAndEq_eq_lt
  simp only [compare_def, order, compareLex, compareOn, Ordering.then_eq_lt,
    Std.compare_eq_lt, hagreed, hprocess, hid, Std.LawfulEqOrd.compare_eq_iff_eq, Precedes]

theorem not_precedes_self (a : HoldEntry) : ¬a.Precedes a := by
  rw [← compare_eq_lt_iff]
  exact not_lt_self a

theorem Precedes.trans (hab : a.Precedes b) (hbc : b.Precedes c) : a.Precedes c := by
  rw [← compare_eq_lt_iff] at *
  exact lt_trans hab hbc

theorem precedes_or_eq_or_precedes (a b : HoldEntry) : a.Precedes b ∨ a = b ∨ b.Precedes a := by
  simp only [← compare_eq_lt_iff]
  by_cases hab : a = b
  · exact Or.inr (Or.inl hab)
  · exact (lt_or_lt_of_ne hab).imp_right Or.inr

instance : IsStrictTotalOrder HoldEntry Precedes where
  trichotomous a b hab hba :=
    ((precedes_or_eq_or_precedes a b).resolve_left hab).resolve_right hba
  irrefl := not_precedes_self
  trans _ _ _ := Precedes.trans

end AgreedOrder.HoldEntry
