/-
  AgreedOrder.SortedMap

  Finite maps kept as strictly increasing lists of entries. Two maps with the
  same look-ups are equal, so a map is its content and nothing else: listings,
  printed snapshots and comparisons need no order of their own.

    * `get?_insert`, `get?_erase` — what a look-up sees after a change.
    * `ext_get?` — equal look-ups give equal maps.
-/

namespace AgreedOrder

/-- A finite map whose entries stand in strictly increasing order of their keys. -/
structure SortedMap (κ : Type) (ν : Type) [Ord κ] where
  entries : List (κ × ν)
  increasing : entries.Pairwise (fun a b => compare a.1 b.1 = .lt)

namespace SortedMap

variable {κ ν μ : Type} [Ord κ]

/-! ## Entry lists -/

/-- Put an entry in its place, over an entry of the same key. -/
def insertEntry (k : κ) (v : ν) : List (κ × ν) → List (κ × ν)
  | [] => [(k, v)]
  | (k', v') :: rest =>
    match compare k k' with
    | .lt => (k, v) :: (k', v') :: rest
    | .eq => (k, v) :: rest
    | .gt => (k', v') :: insertEntry k v rest

/-- The value of the first entry under `k`. -/
def findEntry (k : κ) : List (κ × ν) → Option ν
  | [] => none
  | (k', v) :: rest => if compare k k' = .eq then some v else findEntry k rest

theorem mem_insertEntry {k : κ} {v : ν} {e : κ × ν} {l : List (κ × ν)}
    (h : e ∈ insertEntry k v l) : e = (k, v) ∨ e ∈ l := by
  induction l with
  | nil => simpa [insertEntry] using h
  | cons hd tl ih =>
    rw [insertEntry] at h
    split at h
    · simpa using h
    · simp only [List.mem_cons] at h ⊢
      exact h.imp id Or.inr
    · simp only [List.mem_cons] at h ⊢
      rcases h with h | h
      · exact Or.inr (Or.inl h)
      · exact (ih h).imp id Or.inr

theorem insertEntry_increasing [Std.TransOrd κ] [Std.LawfulEqOrd κ] (k : κ) (v : ν)
    {l : List (κ × ν)} (h : l.Pairwise (fun a b => compare a.1 b.1 = .lt)) :
    (insertEntry k v l).Pairwise (fun a b => compare a.1 b.1 = .lt) := by
  induction l with
  | nil => simp [insertEntry]
  | cons hd tl ih =>
    obtain ⟨k', v'⟩ := hd
    obtain ⟨hhd, htl⟩ := List.pairwise_cons.1 h
    rw [insertEntry]
    split <;> rename_i hc
    · refine List.pairwise_cons.2 ⟨fun e he => ?_, h⟩
      rcases List.mem_cons.1 he with rfl | he
      · exact hc
      · exact Std.TransCmp.lt_trans hc (hhd e he)
    · have hk := Std.LawfulEqCmp.eq_of_compare hc
      subst hk
      exact List.pairwise_cons.2 ⟨hhd, htl⟩
    · refine List.pairwise_cons.2 ⟨fun e he => ?_, ih htl⟩
      rcases mem_insertEntry he with rfl | he
      · exact Std.OrientedCmp.lt_of_gt hc
      · exact hhd e he

/-! ## Operations -/

/-- The map with no entry. -/
def empty : SortedMap κ ν := ⟨[], List.Pairwise.nil⟩

instance : EmptyCollection (SortedMap κ ν) := ⟨empty⟩

instance : Inhabited (SortedMap κ ν) := ⟨empty⟩

/-- The value under `k`, if there is one. -/
def get? (m : SortedMap κ ν) (k : κ) : Option ν := findEntry k m.entries

/-- Whether there is a value under `k`. -/
def contains (m : SortedMap κ ν) (k : κ) : Bool := (m.get? k).isSome

/-- The number of entries. -/
def size (m : SortedMap κ ν) : Nat := m.entries.length

/-- The keys, in increasing order. -/
def keys (m : SortedMap κ ν) : List κ := m.entries.map (·.1)

/-- The values, in the order of their keys. -/
def values (m : SortedMap κ ν) : List ν := m.entries.map (·.2)

/-- Remove the entry under `k`. -/
def erase (m : SortedMap κ ν) (k : κ) : SortedMap κ ν :=
  ⟨m.entries.filter (fun e => compare k e.1 ≠ .eq), m.increasing.filter _⟩

/-- Replace every value, keeping the keys. -/
def map (f : κ → ν → μ) (m : SortedMap κ ν) : SortedMap κ μ :=
  ⟨m.entries.map (fun e => (e.1, f e.1 e.2)), by
    simpa [List.pairwise_map] using m.increasing⟩

section Ordered

variable [Std.TransOrd κ] [Std.LawfulEqOrd κ]

/-- Put `v` under `k`, over an earlier value. -/
def insert (m : SortedMap κ ν) (k : κ) (v : ν) : SortedMap κ ν :=
  ⟨insertEntry k v m.entries, insertEntry_increasing k v m.increasing⟩

/-- Replace the value under `k`, if there is one. -/
def modify (m : SortedMap κ ν) (k : κ) (f : ν → ν) : SortedMap κ ν :=
  match m.get? k with
  | some v => m.insert k (f v)
  | none => m

/-- The map holding the last value given to each key. -/
def ofList (l : List (κ × ν)) : SortedMap κ ν :=
  l.foldl (fun m e => m.insert e.1 e.2) ∅

end Ordered

/-! ## Look-ups after a change -/

@[simp] theorem get?_empty (k : κ) : (∅ : SortedMap κ ν).get? k = none := rfl

theorem findEntry_insertEntry [Std.TransOrd κ] [Std.LawfulEqOrd κ] (k a : κ) (v : ν)
    (l : List (κ × ν)) :
    findEntry a (insertEntry k v l) = if compare a k = .eq then some v else findEntry a l := by
  induction l with
  | nil => rfl
  | cons hd tl ih =>
    obtain ⟨k', v'⟩ := hd
    rw [insertEntry]
    split <;> rename_i hc
    · rfl
    · have hk := Std.LawfulEqCmp.eq_of_compare hc
      subst hk
      simp only [findEntry]
      split <;> rfl
    · simp only [findEntry, ih]
      by_cases ha : compare a k' = .eq
      · have hk := Std.LawfulEqCmp.eq_of_compare ha
        subst hk
        have hne : compare a k ≠ .eq := by
          intro he
          have := Std.LawfulEqCmp.eq_of_compare he
          subst this
          rw [ha] at hc
          exact absurd hc (by decide)
        rw [if_pos ha, if_neg hne, if_pos ha]
      · rw [if_neg ha, if_neg ha]

theorem get?_insert [Std.TransOrd κ] [Std.LawfulEqOrd κ] (m : SortedMap κ ν) (k a : κ) (v : ν) :
    (m.insert k v).get? a = if compare a k = .eq then some v else m.get? a :=
  findEntry_insertEntry k a v m.entries

@[simp] theorem get?_insert_self [Std.TransOrd κ] [Std.LawfulEqOrd κ] (m : SortedMap κ ν) (k : κ)
    (v : ν) : (m.insert k v).get? k = some v := by
  rw [get?_insert, if_pos Std.ReflCmp.compare_self]

theorem get?_insert_of_ne [Std.TransOrd κ] [Std.LawfulEqOrd κ] (m : SortedMap κ ν) {k a : κ}
    (v : ν) (h : a ≠ k) : (m.insert k v).get? a = m.get? a := by
  rw [get?_insert, if_neg fun he => h (Std.LawfulEqCmp.eq_of_compare he)]

theorem findEntry_filter [Std.TransOrd κ] [Std.LawfulEqOrd κ] (k a : κ) (l : List (κ × ν)) :
    findEntry a (l.filter (fun e => compare k e.1 ≠ .eq))
      = if compare a k = .eq then none else findEntry a l := by
  induction l with
  | nil => simp [findEntry]
  | cons hd tl ih =>
    obtain ⟨k', v'⟩ := hd
    by_cases hk : compare k k' = .eq
    · have := Std.LawfulEqCmp.eq_of_compare hk
      subst this
      rw [List.filter_cons_of_neg (by simp), ih]
      simp only [findEntry]
      split <;> rfl
    · rw [List.filter_cons_of_pos (by simpa using hk)]
      simp only [findEntry, ih]
      by_cases ha : compare a k' = .eq
      · have := Std.LawfulEqCmp.eq_of_compare ha
        subst this
        rw [if_pos ha, if_pos ha, if_neg]
        intro he
        have := Std.LawfulEqCmp.eq_of_compare he
        subst this
        exact hk ha
      · rw [if_neg ha, if_neg ha]

theorem get?_erase [Std.TransOrd κ] [Std.LawfulEqOrd κ] (m : SortedMap κ ν) (k a : κ) :
    (m.erase k).get? a = if compare a k = .eq then none else m.get? a :=
  findEntry_filter k a m.entries

@[simp] theorem get?_erase_self [Std.TransOrd κ] [Std.LawfulEqOrd κ] (m : SortedMap κ ν) (k : κ) :
    (m.erase k).get? k = none := by
  rw [get?_erase, if_pos Std.ReflCmp.compare_self]

theorem get?_erase_of_ne [Std.TransOrd κ] [Std.LawfulEqOrd κ] (m : SortedMap κ ν) {k a : κ}
    (h : a ≠ k) : (m.erase k).get? a = m.get? a := by
  rw [get?_erase, if_neg fun he => h (Std.LawfulEqCmp.eq_of_compare he)]

/-! ## Extensionality -/

/-- An increasing list gives nothing for a key below all of its own. -/
theorem findEntry_eq_none_of_lt [Std.TransOrd κ] {k : κ} {l : List (κ × ν)}
    (h : ∀ e ∈ l, compare k e.1 = .lt) : findEntry k l = none := by
  induction l with
  | nil => rfl
  | cons hd tl ih =>
    rw [findEntry, if_neg (by rw [h hd (List.mem_cons_self ..)]; decide)]
    exact ih fun e he => h e (List.mem_cons_of_mem _ he)

theorem eq_of_findEntry_eq [Std.TransOrd κ] [Std.LawfulEqOrd κ] {l₁ l₂ : List (κ × ν)}
    (h₁ : l₁.Pairwise (fun a b => compare a.1 b.1 = .lt))
    (h₂ : l₂.Pairwise (fun a b => compare a.1 b.1 = .lt))
    (h : ∀ k, findEntry k l₁ = findEntry k l₂) : l₁ = l₂ := by
  induction l₁ generalizing l₂ with
  | nil =>
    cases l₂ with
    | nil => rfl
    | cons e tl => simpa [findEntry] using h e.1
  | cons e tl ih =>
    cases l₂ with
    | nil => simpa [findEntry] using h e.1
    | cons e' tl' =>
      obtain ⟨he, htl⟩ := List.pairwise_cons.1 h₁
      obtain ⟨he', htl'⟩ := List.pairwise_cons.1 h₂
      -- The smaller one of two first keys would not be found in the other list.
      have hkey : compare e.1 e'.1 = .eq := by
        cases hc : compare e.1 e'.1 with
        | eq => rfl
        | lt =>
          have hn : findEntry e.1 (e' :: tl') = none :=
            findEntry_eq_none_of_lt fun d hd => by
              rcases List.mem_cons.1 hd with rfl | hd
              · exact hc
              · exact Std.TransCmp.lt_trans hc (he' d hd)
          rw [← h] at hn
          simp [findEntry] at hn
        | gt =>
          have hc' := Std.OrientedCmp.lt_of_gt hc
          have hn : findEntry e'.1 (e :: tl) = none :=
            findEntry_eq_none_of_lt fun d hd => by
              rcases List.mem_cons.1 hd with rfl | hd
              · exact hc'
              · exact Std.TransCmp.lt_trans hc' (he d hd)
          rw [h] at hn
          simp [findEntry] at hn
      have hk := Std.LawfulEqCmp.eq_of_compare hkey
      have hv := h e.1
      simp only [findEntry, Std.ReflCmp.compare_self, hkey, if_true, Option.some.injEq] at hv
      have hee : e = e' := Prod.ext hk hv
      subst hee
      congr 1
      -- The rest of either list has nothing for the first key.
      refine ih htl htl' fun k => ?_
      by_cases hek : compare k e.1 = .eq
      · have := Std.LawfulEqCmp.eq_of_compare hek
        subst this
        rw [findEntry_eq_none_of_lt he, findEntry_eq_none_of_lt he']
      · simpa [findEntry, hek] using h k

/-- Maps with equal look-ups are equal. -/
theorem ext_get? [Std.TransOrd κ] [Std.LawfulEqOrd κ] {m₁ m₂ : SortedMap κ ν}
    (h : ∀ k, m₁.get? k = m₂.get? k) : m₁ = m₂ := by
  obtain ⟨l₁, h₁⟩ := m₁
  obtain ⟨l₂, h₂⟩ := m₂
  have := eq_of_findEntry_eq h₁ h₂ h
  subst this
  rfl

end SortedMap

end AgreedOrder
