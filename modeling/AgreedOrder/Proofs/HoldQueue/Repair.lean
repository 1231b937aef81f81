/-
  AgreedOrder.Proofs.HoldQueue.Repair

  A heap that is wrong at one slot only is in order after `fix`. The entry at
  the slot moves up while it is smaller than its parent, and down otherwise;
  what it passes on its way was in order before, so two relations carry both
  loops: every pair off the slot is in order, and the slot's children are not
  smaller than its parent.

    * `UpOrder`, `DownOrder` — what each loop keeps.
    * `ordered_siftUp`, `ordered_siftDown`, `ordered_fix` — how they end.
    * `HoleOrder.siftUp_cases` — an entry that moved up need not move down.
-/

import AgreedOrder.HoldQueue

namespace AgreedOrder.HoldQueue

variable {q : HoldQueue}

/-! ## Comparing slots -/

theorem lessAt_eq_true_iff {i j : Nat} : q.lessAt i j = true ↔
    ∃ a b, q.heap[i]? = some a ∧ q.heap[j]? = some b ∧ compare a b = .lt := by
  unfold lessAt
  constructor
  · intro h
    split at h
    · rename_i a b ha hb
      exact ⟨a, b, ha, hb, Ordering.isLT_iff_eq_lt.1 h⟩
    · simp at h
  · rintro ⟨a, b, ha, hb, hab⟩
    rw [ha, hb]
    exact Ordering.isLT_iff_eq_lt.2 hab

theorem lessAt_asymm {i j : Nat} (h : q.lessAt i j = true) : q.lessAt j i = false := by
  obtain ⟨a, b, ha, hb, hab⟩ := lessAt_eq_true_iff.1 h
  rw [Bool.eq_false_iff]
  intro hji
  obtain ⟨b', a', hb', ha', hba⟩ := lessAt_eq_true_iff.1 hji
  rw [ha] at ha'
  rw [hb] at hb'
  cases ha'
  cases hb'
  rw [Std.OrientedCmp.gt_of_lt hab] at hba
  cases hba

theorem lessAt_irrefl (q : HoldQueue) (i : Nat) : q.lessAt i i = false := by
  rw [Bool.eq_false_iff]
  intro h
  rw [lessAt_asymm h] at h
  cases h

/-- An entry that is smaller than a third is smaller than a second one, or the second is smaller
    than the third. -/
theorem lessAt_or_lessAt {i j k : Nat} (hj : j < q.heap.size) (h : q.lessAt i k = true) :
    q.lessAt i j = true ∨ q.lessAt j k = true := by
  obtain ⟨a, c, ha, hc, hac⟩ := lessAt_eq_true_iff.1 h
  have hb : q.heap[j]? = some q.heap[j] := Array.getElem?_eq_getElem hj
  by_cases hab : compare a q.heap[j] = .lt
  · exact Or.inl (lessAt_eq_true_iff.2 ⟨a, _, ha, hb, hab⟩)
  · have hge : (compare q.heap[j] a).isLE := by
      rw [Std.OrientedOrd.eq_swap]
      cases hcmp : compare a q.heap[j] with
      | lt => exact absurd hcmp hab
      | eq => rfl
      | gt => rfl
    exact Or.inr (lessAt_eq_true_iff.2 ⟨_, c, hb, hc, Std.TransCmp.lt_of_isLE_of_lt hge hac⟩)

theorem not_lessAt_trans {i j k : Nat} (hj : j < q.heap.size) (hij : q.lessAt i j = false)
    (hjk : q.lessAt j k = false) : q.lessAt i k = false := by
  rw [Bool.eq_false_iff]
  intro h
  rcases lessAt_or_lessAt hj h with h | h
  · rw [hij] at h
    cases h
  · rw [hjk] at h
    cases h

theorem lt_size_of_lessAt_left {i j : Nat} (h : q.lessAt i j = true) : i < q.heap.size := by
  obtain ⟨a, _, ha, -⟩ := lessAt_eq_true_iff.1 h
  exact (Array.getElem?_eq_some_iff.1 ha).1

theorem lt_size_of_lessAt_right {i j : Nat} (h : q.lessAt i j = true) : j < q.heap.size := by
  obtain ⟨_, b, -, hb, -⟩ := lessAt_eq_true_iff.1 h
  exact (Array.getElem?_eq_some_iff.1 hb).1

/-! ## Exchanging two slots -/

/-- Where the entry at a slot comes from when two slots are exchanged. -/
def exchange (i j k : Nat) : Nat := if k = i then j else if k = j then i else k

@[simp] theorem exchange_left (i j : Nat) : exchange i j i = j := if_pos rfl

@[simp] theorem exchange_right (i j : Nat) : exchange i j j = i := by
  unfold exchange
  split
  · assumption
  · exact if_pos rfl

theorem exchange_of_ne {i j k : Nat} (hi : k ≠ i) (hj : k ≠ j) : exchange i j k = k := by
  rw [exchange, if_neg hi, if_neg hj]

theorem getElem?_heap_swap {i j : Nat} (hi : i < q.heap.size) (hj : j < q.heap.size) (k : Nat) :
    (q.swap i j).heap[k]? = q.heap[exchange i j k]? := by
  unfold swap exchange
  rw [dif_pos ⟨hi, hj⟩]
  split
  · rename_i hij
    subst hij
    split
    · rename_i hk
      rw [hk]
    · rfl
  · simp only [Array.getElem?_swap]
    by_cases hki : k = i
    · subst hki
      rw [if_pos rfl, if_pos rfl, Array.getElem?_eq_getElem hj]
      split
      · rename_i hjk
        subst hjk
        rfl
      · rfl
    · by_cases hkj : k = j
      · subst hkj
        simp [hki]
      · simp [hki, hkj, Ne.symm hki, Ne.symm hkj]

theorem lessAt_swap {i j : Nat} (hi : i < q.heap.size) (hj : j < q.heap.size) (a b : Nat) :
    (q.swap i j).lessAt a b = q.lessAt (exchange i j a) (exchange i j b) := by
  unfold lessAt
  rw [getElem?_heap_swap hi hj, getElem?_heap_swap hi hj]

/-! ## Order -/

/-- No entry is smaller than its parent. -/
def Ordered (q : HoldQueue) : Prop := ∀ i, 0 < i → q.lessAt i (parent i) = false

/-- Every pair that does not touch the slot is in order, and no child of the slot is smaller than
    the slot's parent. -/
structure HoleOrder (q : HoldQueue) (slot : Nat) : Prop where
  off : ∀ i, 0 < i → i ≠ slot → parent i ≠ slot → q.lessAt i (parent i) = false
  grand : 0 < slot → ∀ c, 0 < c → parent c = slot → q.lessAt c (parent slot) = false

/-- The slot may only be wrong with its parent. -/
structure UpOrder (q : HoldQueue) (slot : Nat) : Prop extends HoleOrder q slot where
  below : ∀ c, 0 < c → parent c = slot → q.lessAt c slot = false

/-- The slot may only be wrong with its children. -/
structure DownOrder (q : HoldQueue) (slot : Nat) : Prop extends HoleOrder q slot where
  above : 0 < slot → q.lessAt slot (parent slot) = false

theorem parent_lt {i : Nat} (h : 0 < i) : parent i < i := by
  unfold parent
  omega

theorem Ordered.holeOrder (h : q.Ordered) (slot : Nat) : q.HoleOrder slot where
  off i hi _ _ := h i hi
  grand hpos c hc hcs := by
    by_cases hslot : slot < q.heap.size
    · have hup : q.lessAt c slot = false := hcs ▸ h c hc
      exact not_lessAt_trans hslot hup (h slot hpos)
    · rw [Bool.eq_false_iff]
      intro hl
      have hlt := lt_size_of_lessAt_left hl
      have := parent_lt hc
      omega

/-! ## Moving up -/

theorem UpOrder.finish {slot : Nat} (o : q.UpOrder slot)
    (hstop : 0 < slot → q.lessAt slot (parent slot) = false) : q.Ordered := by
  intro i hi
  by_cases his : i = slot
  -- The slot itself, what hangs below it, and the rest.
  · subst his
    exact hstop hi
  · by_cases hps : parent i = slot
    · rw [hps]
      exact o.below i hi hps
    · exact o.off i hi his hps

theorem UpOrder.move {slot : Nat} (o : q.UpOrder slot) (hpos : 0 < slot)
    (hless : q.lessAt slot (parent slot) = true) :
    (q.swap slot (parent slot)).UpOrder (parent slot) := by
  have hs := lt_size_of_lessAt_left hless
  have hp := lt_size_of_lessAt_right hless
  have hlt := parent_lt hpos
  -- What hangs below the parent is not smaller than the entry that takes its place.
  have hsibling : ∀ c, 0 < c → c ≠ slot → parent c = parent slot → q.lessAt c slot = false := by
    intro c hc hcs hcp
    have hne : parent c ≠ slot := by omega
    have hcpar : q.lessAt c (parent slot) = false := hcp ▸ o.off c hc hcs hne
    rw [Bool.eq_false_iff]
    intro hcl
    rcases lessAt_or_lessAt hp hcl with h | h
    · rw [hcpar] at h
      cases h
    · rw [lessAt_asymm hless] at h
      cases h
  refine ⟨⟨fun i hi hip hpi => ?_, fun hpp c hc hcp => ?_⟩, fun c hc hcp => ?_⟩
  · rw [lessAt_swap hs hp]
    -- Away from the entry, the heap is as it was. Its old place is held by its old parent.
    by_cases his : i = slot
    · exact absurd (congrArg parent his) hpi
    · rw [exchange_of_ne his hip]
      by_cases hps : parent i = slot
      · rw [hps, exchange_left]
        exact o.grand hpos i hi hps
      · rw [exchange_of_ne hps hpi]
        exact o.off i hi his hps
  -- What hangs below the new place of the entry is not smaller than what is above it.
  · have hpp' := parent_lt hpp
    have hup : q.lessAt (parent slot) (parent (parent slot)) = false :=
      o.off (parent slot) hpp (by omega) (by omega)
    rw [lessAt_swap hs hp, exchange_of_ne (k := parent (parent slot)) (by omega) (by omega)]
    by_cases hcs : c = slot
    · rw [hcs, exchange_left]
      exact hup
    · have hcp' := parent_lt hc
      rw [exchange_of_ne hcs (by omega)]
      have hc' : q.lessAt c (parent slot) = false := hcp ▸ o.off c hc hcs (by omega)
      exact not_lessAt_trans hp hc' hup
  -- The entry is smaller than what hangs below its new place.
  · have hcp' := parent_lt hc
    rw [lessAt_swap hs hp, exchange_right]
    by_cases hcs : c = slot
    · rw [hcs, exchange_left]
      exact lessAt_asymm hless
    · rw [exchange_of_ne hcs (by omega)]
      exact hsibling c hc hcs hcp

theorem ordered_siftUp (slot : Nat) (o : q.UpOrder slot) : (q.siftUp slot).1.Ordered := by
  fun_induction siftUp q slot with
  | case1 q slot hpos hless ih => exact ih (o.move hpos hless)
  | case2 q slot _ hless => exact o.finish fun _ => by simpa using hless
  | case3 q slot hpos => exact o.finish fun h => absurd h hpos

/-- The entry ends above its parent's slot once it has moved at all. -/
theorem reached_siftUp_le (q : HoldQueue) (slot : Nat) : (q.siftUp slot).2 ≤ slot := by
  fun_induction siftUp q slot with
  | case1 q slot hpos _ ih =>
    have := parent_lt hpos
    omega
  | case2 => exact Nat.le_refl _
  | case3 => exact Nat.le_refl _

/-! ## Moving down -/

/-- A slot below another one is its left or its right child. -/
theorem eq_child_of_parent_eq {c slot : Nat} (hc : 0 < c) (h : parent c = slot) :
    c = 2 * slot + 1 ∨ c = 2 * slot + 2 := by
  unfold parent at h
  omega

theorem smallerChild_eq (q : HoldQueue) (slot : Nat) :
    q.smallerChild slot = 2 * slot + 1 ∨ q.smallerChild slot = 2 * slot + 2 := by
  unfold smallerChild
  split
  · exact Or.inr rfl
  · exact Or.inl rfl

theorem parent_smallerChild (q : HoldQueue) (slot : Nat) : parent (q.smallerChild slot) = slot := by
  unfold parent
  rcases smallerChild_eq q slot with h | h <;> rw [h] <;> omega

theorem smallerChild_lt_size {slot : Nat} (h : 2 * slot + 1 < q.heap.size) :
    q.smallerChild slot < q.heap.size := by
  unfold smallerChild
  split
  · rename_i hless
    exact lt_size_of_lessAt_left hless
  · exact h

/-- No child is smaller than the smaller one. -/
theorem not_lessAt_smallerChild {c slot : Nat} (hc : 0 < c) (h : parent c = slot) :
    q.lessAt c (q.smallerChild slot) = false := by
  unfold smallerChild
  split
  · rename_i hless
    rcases eq_child_of_parent_eq hc h with rfl | rfl
    · exact lessAt_asymm hless
    · exact q.lessAt_irrefl _
  · rename_i hless
    rcases eq_child_of_parent_eq hc h with rfl | rfl
    · exact q.lessAt_irrefl _
    · simpa using hless

theorem DownOrder.finish {slot : Nat} (o : q.DownOrder slot)
    (hstop : ∀ c, 0 < c → parent c = slot → q.lessAt c slot = false) : q.Ordered := by
  intro i hi
  by_cases his : i = slot
  · subst his
    exact o.above hi
  · by_cases hps : parent i = slot
    · rw [hps]
      exact hstop i hi hps
    · exact o.off i hi his hps

theorem DownOrder.move {slot : Nat} (o : q.DownOrder slot) (hchild : 2 * slot + 1 < q.heap.size)
    (hless : q.lessAt (q.smallerChild slot) slot = true) :
    (q.swap slot (q.smallerChild slot)).DownOrder (q.smallerChild slot) := by
  have hm := smallerChild_lt_size hchild
  have hlt := q.lt_smallerChild slot
  have hpm := q.parent_smallerChild slot
  -- The child that moves up is not larger than its sibling.
  have hmin : ∀ c, 0 < c → parent c = slot → q.lessAt c (q.smallerChild slot) = false :=
    fun c hc hcs => not_lessAt_smallerChild hc hcs
  generalize q.smallerChild slot = m at hm hlt hpm hmin hless
  have hs : slot < q.heap.size := by omega
  refine ⟨⟨fun i hi him hpi => ?_, fun _ c hc hcm => ?_⟩, fun _ => ?_⟩
  · rw [lessAt_swap hs hm]
    -- Away from the entry, the heap is as it was. Its old place is held by its old child.
    by_cases his : i = slot
    · have hps := parent_lt hi
      rw [his] at hps hi ⊢
      rw [exchange_left, exchange_of_ne (by omega) (by omega)]
      exact o.grand hi m (by omega) hpm
    · rw [exchange_of_ne his him]
      by_cases hps : parent i = slot
      · rw [hps, exchange_left]
        exact hmin i hi hps
      · rw [exchange_of_ne hps hpi]
        exact o.off i hi his hps
  · have := parent_lt hc
    rw [lessAt_swap hs hm, hpm, exchange_left, exchange_of_ne (by omega) (by omega)]
    have hoff : q.lessAt c (parent c) = false := o.off c hc (by omega) (by omega)
    rw [hcm] at hoff
    exact hoff
  · rw [lessAt_swap hs hm, hpm, exchange_left, exchange_right]
    exact lessAt_asymm hless

theorem ordered_siftDown (slot : Nat) (o : q.DownOrder slot) : (q.siftDown slot).Ordered := by
  fun_induction siftDown q slot with
  | case1 q slot hchild hless ih => exact ih (o.move hchild hless)
  | case2 q slot hchild hless =>
    refine o.finish fun c hc hcs => ?_
    exact not_lessAt_trans (smallerChild_lt_size hchild) (not_lessAt_smallerChild hc hcs)
      (by simpa using hless)
  | case3 q slot hchild =>
    -- The slot has no child.
    refine o.finish fun c hc hcs => ?_
    rw [Bool.eq_false_iff]
    intro hl
    have := lt_size_of_lessAt_left hl
    rcases eq_child_of_parent_eq hc hcs with rfl | rfl <;> omega

/-! ## Putting an entry where it belongs -/

/-- An entry that is not smaller than its parent does not move up. -/
theorem siftUp_eq_self {slot : Nat} (h : 0 < slot → q.lessAt slot (parent slot) = false) :
    q.siftUp slot = (q, slot) := by
  unfold siftUp
  split
  · rename_i hpos
    rw [if_neg (by rw [h hpos]; exact Bool.false_ne_true)]
  · rfl

/-- An entry that is smaller than its parent does not stay. -/
theorem reached_siftUp_ne {slot : Nat} (hpos : 0 < slot)
    (hless : q.lessAt slot (parent slot) = true) : (q.siftUp slot).2 ≠ slot := by
  rw [siftUp, dif_pos hpos, if_pos hless]
  have := reached_siftUp_le (q.swap slot (parent slot)) (parent slot)
  have := parent_lt hpos
  omega

/-- Where only one slot is wrong, its entry stays while nothing changes, or it moves up and that
    alone brings the queue in order. -/
theorem HoleOrder.siftUp_cases {slot : Nat} (o : q.HoleOrder slot) :
    q.siftUp slot = (q, slot) ∧ q.DownOrder slot ∨
      (q.siftUp slot).2 ≠ slot ∧ (q.siftUp slot).1.Ordered := by
  by_cases hup : 0 < slot ∧ q.lessAt slot (parent slot) = true
  · obtain ⟨hpos, hless⟩ := hup
    -- What hangs below an entry that is smaller than its parent is not smaller than the entry.
    have hbelow : ∀ c, 0 < c → parent c = slot → q.lessAt c slot = false := by
      intro c hc hcs
      rw [Bool.eq_false_iff]
      intro hcl
      rcases lessAt_or_lessAt (lt_size_of_lessAt_right hless) hcl with h | h
      · rw [o.grand hpos c hc hcs] at h
        cases h
      · rw [lessAt_asymm hless] at h
        cases h
    exact Or.inr ⟨reached_siftUp_ne hpos hless, ordered_siftUp slot ⟨o, hbelow⟩⟩
  · have habove : 0 < slot → q.lessAt slot (parent slot) = false := by
      intro hpos
      rw [Bool.eq_false_iff]
      exact fun hless => hup ⟨hpos, hless⟩
    exact Or.inl ⟨siftUp_eq_self habove, o, habove⟩

/-- A queue that is wrong at one slot only is in order after the repair of that slot. -/
theorem ordered_fix (slot : Nat) (o : q.HoleOrder slot) : (q.fix slot).Ordered := by
  rcases o.siftUp_cases with ⟨hstay, down⟩ | ⟨hreached, ordered⟩
  · simp only [fix, hstay, if_true]
    exact ordered_siftDown slot down
  · simp only [fix, if_neg hreached]
    exact ordered

/-- In a queue in order no entry moves down. -/
theorem Ordered.siftDown_eq_self (h : q.Ordered) (slot : Nat) : q.siftDown slot = q := by
  unfold siftDown
  split
  · have hchild := h (q.smallerChild slot) (Nat.zero_lt_of_lt (q.lt_smallerChild slot))
    rw [parent_smallerChild] at hchild
    rw [if_neg (by rw [hchild]; exact Bool.false_ne_true)]
  · rfl

/-- The smallest entry of a queue in order stands at its front. -/
theorem Ordered.not_lessAt_zero (h : q.Ordered) (i : Nat) : q.lessAt i 0 = false := by
  induction i using Nat.strongRecOn with
  -- Step by step to the parent, which stands nearer to the front.
  | ind i ih =>
    by_cases hi : 0 < i
    · have hp := parent_lt hi
      by_cases hsize : parent i < q.heap.size
      · exact not_lessAt_trans hsize (h i hi) (ih (parent i) hp)
      · rw [Bool.eq_false_iff]
        intro hl
        have := lt_size_of_lessAt_left hl
        omega
    · have : i = 0 := by omega
      subst this
      exact q.lessAt_irrefl 0

end AgreedOrder.HoldQueue
