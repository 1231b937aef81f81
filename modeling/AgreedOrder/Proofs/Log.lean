/-
  AgreedOrder.Proofs.Log

  Records of what was said and of what is under way. A step adds at most one
  entry, at the end, or takes one out, and no two entries have the same key.

    * `Leads` — one entry comes before another, wherever the other comes.
-/

import Mathlib.Data.List.Nodup
import Mathlib.Data.List.Pairwise

namespace AgreedOrder

variable {α β : Type} {l : List α} {a b : α}

theorem mem_append_singleton : a ∈ l ++ [b] ↔ a ∈ l ∨ a = b := by
  rw [List.mem_append, List.mem_singleton]

/-- The records apart from one of them. -/
theorem mem_iff_of_split {before after : List α} (h : l = before ++ a :: after) :
    b ∈ l ↔ b = a ∨ b ∈ before ++ after := by
  rw [h, List.perm_middle.mem_iff, List.mem_cons]

/-- The keys stay apart if the new entry has a new one. -/
theorem nodup_map_append_singleton {key : α → β} (h : (l.map key).Nodup)
    (hnew : ∀ b ∈ l, key b ≠ key a) : ((l ++ [a]).map key).Nodup := by
  rw [List.map_append, List.nodup_append]
  refine ⟨h, List.nodup_singleton _, fun k hk k' hk' heq => ?_⟩
  obtain ⟨b, hb, rfl⟩ := List.mem_map.1 hk
  rw [List.map_singleton, List.mem_singleton] at hk'
  exact hnew b hb (heq.trans hk')

/-- The new entry has its key at the end, if it has one. -/
theorem filterMap_append_singleton (key : α → Option β) :
    (l ++ [a]).filterMap key = l.filterMap key ++ (key a).toList := by
  rw [List.filterMap_append, List.filterMap_cons]
  cases key a <;> rfl

/-- Two entries that have the same key are the same, if not all have one. -/
theorem eq_of_nodup_filterMap {key : α → Option β} (h : (l.filterMap key).Nodup) (ha : a ∈ l)
    (hb : b ∈ l) {k : β} (hka : key a = some k) (hkb : key b = some k) : a = b := by
  by_contra hne
  rw [List.nodup_iff_pairwise_ne, List.pairwise_filterMap] at h
  have hsymm : Std.Symm fun x y => ∀ i, key x = some i → ∀ j, key y = some j → i ≠ j :=
    ⟨fun _ _ hxy i hi j hj heq => hxy j hj i hi heq.symm⟩
  exact h.forall ha hb hne k hka k hkb rfl

/-! ## One entry before another -/

/-- Before each place where the second of two entries stands, the first one stands somewhere. -/
def Leads (x y : α) (l : List α) : Prop :=
  ∀ before after, l = before ++ y :: after → x ∈ before

variable {x y : α} {l' : List α}

theorem leads_of_not_mem (h : y ∉ l) : Leads x y l := by
  rintro before after rfl
  exact absurd (List.mem_append_right _ (List.mem_cons_self ..)) h

/-- The second entry may be added once the first one is there. -/
theorem Leads.append (h : Leads x y l) (hnew : y ∈ l' → x ∈ l) : Leads x y (l ++ l') := by
  intro before after heq
  rcases List.append_eq_append_iff.1 heq with ⟨gap, rfl, hl'⟩ | ⟨gap, hl, hrest⟩
  · refine List.mem_append_left _ (hnew ?_)
    rw [hl']
    exact List.mem_append_right _ (List.mem_cons_self ..)
  · cases gap with
    | nil =>
      rw [List.append_nil] at hl
      rw [List.nil_append] at hrest
      exact hl ▸ hnew (hrest ▸ List.mem_cons_self ..)
    | cons z gap =>
      obtain ⟨rfl, -⟩ := List.cons.inj hrest
      exact h before gap hl

/-- Entries other than the first one may be taken off the front. -/
theorem Leads.of_append (h : Leads x y (l' ++ l)) (hx : x ∉ l') : Leads x y l := by
  rintro before after rfl
  have hmem := h (l' ++ before) after (List.append_assoc ..).symm
  exact (List.mem_append.1 hmem).resolve_left hx

/-- What keys say of the order, if the second one belongs to one entry. -/
theorem Leads.filterMap (h : Leads x y l) {key : α → Option β} {i j : β} (hx : key x = some i)
    (hy : ∀ z ∈ l, key z = some j → z = y) : Leads i j (l.filterMap key) := by
  intro before after heq
  obtain ⟨l₁, l₂, rfl, rfl, hl₂⟩ := List.filterMap_eq_append_iff.1 heq
  obtain ⟨l₃, z, l₄, rfl, hnone, hz, -⟩ := List.filterMap_eq_cons_iff.1 hl₂
  obtain rfl := hy z (by simp) hz
  have hmem := h (l₁ ++ l₃) l₄ (List.append_assoc ..).symm
  rcases List.mem_append.1 hmem with hmem | hmem
  · exact List.mem_filterMap.2 ⟨x, hmem, hx⟩
  · rw [hnone x hmem] at hx
    cases hx

end AgreedOrder
