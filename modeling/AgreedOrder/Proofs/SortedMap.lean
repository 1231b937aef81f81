/-
  AgreedOrder.Proofs.SortedMap

  Look-ups in finite maps, by equality of keys, and what they say about the
  entries, the keys and the size.
-/

import AgreedOrder.SortedMap

namespace AgreedOrder.SortedMap

variable {κ ν μ : Type} [Ord κ]

theorem not_compare_self_eq_lt [Std.TransOrd κ] (k : κ) : compare k k ≠ .lt := by
  rw [Std.ReflOrd.compare_self]
  decide

/-! ## Look-ups after a change -/

theorem get?_insert_eq_ite [Std.TransOrd κ] [Std.LawfulEqOrd κ] [DecidableEq κ]
    (m : SortedMap κ ν) (k a : κ) (v : ν) :
    (m.insert k v).get? a = if a = k then some v else m.get? a := by
  rw [get?_insert]
  simp only [Std.LawfulEqOrd.compare_eq_iff_eq]

theorem get?_erase_eq_ite [Std.TransOrd κ] [Std.LawfulEqOrd κ] [DecidableEq κ]
    (m : SortedMap κ ν) (k a : κ) :
    (m.erase k).get? a = if a = k then none else m.get? a := by
  rw [get?_erase]
  simp only [Std.LawfulEqOrd.compare_eq_iff_eq]

theorem get?_modify [Std.TransOrd κ] [Std.LawfulEqOrd κ] [DecidableEq κ]
    (m : SortedMap κ ν) (k a : κ) (f : ν → ν) :
    (m.modify k f).get? a = if a = k then (m.get? a).map f else m.get? a := by
  unfold modify
  split
  · rename_i v hv
    rw [get?_insert_eq_ite]
    split
    · rename_i hak
      rw [hak, hv]
      rfl
    · rfl
  · rename_i hk
    split
    · rename_i hak
      rw [hak, hk]
      rfl
    · rfl

theorem get?_map (f : κ → ν → μ) (m : SortedMap κ ν) (a : κ)
    (hf : ∀ k, compare a k = .eq → f k = f a) : (m.map f).get? a = (m.get? a).map (f a) := by
  obtain ⟨l, hl⟩ := m
  simp only [get?, map]
  clear hl
  induction l with
  | nil => rfl
  | cons e tl ih =>
    simp only [List.map_cons, findEntry]
    split
    · rename_i he
      rw [hf e.1 he]
      rfl
    · exact ih

/-! ## Entries and keys -/

theorem mem_of_findEntry_eq_some [Std.LawfulEqOrd κ] {k : κ} {v : ν} {l : List (κ × ν)}
    (h : findEntry k l = some v) : (k, v) ∈ l := by
  induction l with
  | nil => simp [findEntry] at h
  | cons e tl ih =>
    rw [findEntry] at h
    split at h
    · rename_i hk
      have hke := Std.LawfulEqCmp.eq_of_compare hk
      cases h
      subst hke
      exact List.mem_cons_self ..
    · exact List.mem_cons_of_mem _ (ih h)

theorem mem_entries_iff [Std.TransOrd κ] [Std.LawfulEqOrd κ] (m : SortedMap κ ν) (k : κ)
    (v : ν) : (k, v) ∈ m.entries ↔ m.get? k = some v := by
  obtain ⟨l, hl⟩ := m
  constructor
  · intro h
    simp only [get?] at h ⊢
    induction l with
    | nil => simp at h
    | cons e tl ih =>
      obtain ⟨he, htl⟩ := List.pairwise_cons.1 hl
      rcases List.mem_cons.1 h with rfl | h
      · rw [findEntry, if_pos Std.ReflCmp.compare_self]
      · have hne : compare k e.1 ≠ .eq := by
          intro hke
          have hlt := he (k, v) h
          rw [← Std.LawfulEqCmp.eq_of_compare hke] at hlt
          exact absurd hlt (not_compare_self_eq_lt k)
        rw [findEntry, if_neg hne]
        exact ih htl h
  · exact mem_of_findEntry_eq_some

theorem mem_keys_iff [Std.TransOrd κ] [Std.LawfulEqOrd κ] (m : SortedMap κ ν) (k : κ) :
    k ∈ m.keys ↔ m.contains k = true := by
  simp only [keys, contains, List.mem_map, Option.isSome_iff_exists]
  constructor
  · rintro ⟨⟨k', v⟩, he, rfl⟩
    exact ⟨v, (m.mem_entries_iff k' v).1 he⟩
  · rintro ⟨v, hv⟩
    exact ⟨(k, v), (m.mem_entries_iff k v).2 hv, rfl⟩

theorem nodup_keys [Std.TransOrd κ] (m : SortedMap κ ν) : m.keys.Nodup := by
  unfold keys
  rw [List.nodup_iff_pairwise_ne, List.pairwise_map]
  refine m.increasing.imp fun {a b} hab heq => ?_
  rw [heq] at hab
  exact absurd hab (not_compare_self_eq_lt b.1)

@[simp] theorem keys_map (f : κ → ν → μ) (m : SortedMap κ ν) : (m.map f).keys = m.keys := by
  simp [keys, map]

/-- Maps with an entry under the same keys have the same keys in the same order. -/
theorem keys_eq_of_contains [Std.TransOrd κ] [Std.LawfulEqOrd κ] {m₁ : SortedMap κ ν}
    {m₂ : SortedMap κ μ} (h : ∀ k, m₁.contains k = m₂.contains k) : m₁.keys = m₂.keys := by
  have hunit : m₁.map (fun _ _ => ()) = m₂.map (fun _ _ => ()) := by
    apply ext_get?
    intro k
    have hk := h k
    unfold contains at hk
    rw [get?_map _ _ _ fun _ _ => rfl, get?_map _ _ _ fun _ _ => rfl]
    cases h₁ : m₁.get? k <;> cases h₂ : m₂.get? k
    · rfl
    · rw [h₁, h₂] at hk
      cases hk
    · rw [h₁, h₂] at hk
      cases hk
    · rfl
  rw [← keys_map (fun _ _ => ()) m₁, hunit, keys_map]

theorem contains_insert [Std.TransOrd κ] [Std.LawfulEqOrd κ] [DecidableEq κ]
    (m : SortedMap κ ν) (k a : κ) (v : ν) :
    (m.insert k v).contains a = (decide (a = k) || m.contains a) := by
  simp only [contains, get?_insert_eq_ite]
  split <;> simp_all

theorem contains_erase [Std.TransOrd κ] [Std.LawfulEqOrd κ] [DecidableEq κ]
    (m : SortedMap κ ν) (k a : κ) :
    (m.erase k).contains a = (!decide (a = k) && m.contains a) := by
  simp only [contains, get?_erase_eq_ite]
  split <;> simp_all

end AgreedOrder.SortedMap
