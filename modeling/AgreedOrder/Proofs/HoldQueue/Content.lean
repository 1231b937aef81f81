/-
  AgreedOrder.Proofs.HoldQueue.Content

  What a hold queue holds, as look-ups by message. The index of a queue is
  right when it tells the slot of each entry and knows no other message; then
  a look-up by message is a search among the entries, and the repair of the
  heap changes no look-up.

    * `Indexed` — the index is right.
    * `Indexed.get?_eq_some_iff` — look-ups and entries.
    * `Indexed.get?_eq_of_perm` — the order of the slots does not show.
-/

import AgreedOrder.Proofs.HoldQueue.Repair
import AgreedOrder.Proofs.SortedMap

namespace AgreedOrder.HoldQueue

variable {q : HoldQueue}

/-! ## The index -/

/-- The index tells the slot of the entry of each message, and knows no other message. -/
def Indexed (q : HoldQueue) : Prop :=
  ∀ id slot, q.slots.get? id = some slot ↔ ∃ e, q.heap[slot]? = some e ∧ e.id = id

/-- The entries, in the order of the slots. -/
def entries (q : HoldQueue) : List HoldEntry := q.heap.toList

theorem mem_entries_iff {e : HoldEntry} :
    e ∈ q.entries ↔ ∃ slot : Nat, q.heap[slot]? = some e := by
  unfold entries
  rw [← Array.mem_def, Array.mem_iff_getElem?]

theorem Indexed.slot_eq (h : q.Indexed) {i j : Nat} {a b : HoldEntry} (ha : q.heap[i]? = some a)
    (hb : q.heap[j]? = some b) (hid : a.id = b.id) : i = j := by
  have hi := (h a.id i).2 ⟨a, ha, rfl⟩
  have hj := (h a.id j).2 ⟨b, hb, hid.symm⟩
  rw [hi] at hj
  exact Option.some.inj hj

theorem Indexed.get?_eq_some_iff (h : q.Indexed) {id : MessageId} {e : HoldEntry} :
    q.get? id = some e ↔ e ∈ q.entries ∧ e.id = id := by
  rw [mem_entries_iff]
  unfold get?
  rw [Option.bind_eq_some_iff]
  constructor
  · rintro ⟨slot, hslot, he⟩
    obtain ⟨e', he', hid⟩ := (h id slot).1 hslot
    rw [he] at he'
    cases he'
    exact ⟨⟨slot, he⟩, hid⟩
  · rintro ⟨⟨slot, he⟩, hid⟩
    exact ⟨slot, (h id slot).2 ⟨e, he, hid⟩, he⟩

/-- A message is held under its own id. -/
theorem Indexed.id_eq (h : q.Indexed) {id : MessageId} {e : HoldEntry} (he : q.get? id = some e) :
    e.id = id :=
  (h.get?_eq_some_iff.1 he).2

theorem Indexed.slots_get?_eq_none_iff (h : q.Indexed) {id : MessageId} :
    q.slots.get? id = none ↔ q.get? id = none := by
  unfold get?
  cases hs : q.slots.get? id with
  | none => simp
  | some slot =>
    obtain ⟨e, he, -⟩ := (h id slot).1 hs
    simp [he]

theorem Indexed.contains_eq (h : q.Indexed) (id : MessageId) :
    q.contains id = (q.get? id).isSome := by
  unfold contains SortedMap.contains
  cases hs : q.slots.get? id with
  | none =>
    rw [h.slots_get?_eq_none_iff.1 hs]
    rfl
  | some slot =>
    have hne : q.get? id ≠ none := fun hn => by
      rw [← h.slots_get?_eq_none_iff, hs] at hn
      cases hn
    rw [Option.isSome_some, Option.isSome_iff_ne_none.2 hne]

/-! ## The index under repair -/

theorem exchange_exchange (i j k : Nat) : exchange i j (exchange i j k) = k := by
  by_cases hi : k = i
  · rw [hi, exchange_left, exchange_right]
  · by_cases hj : k = j
    · rw [hj, exchange_right, exchange_left]
    · rw [exchange_of_ne hi hj, exchange_of_ne hi hj]

theorem Indexed.get?_slots_swap (h : q.Indexed) {i j : Nat} (hi : i < q.heap.size)
    (hj : j < q.heap.size) (id : MessageId) :
    (q.swap i j).slots.get? id = (q.slots.get? id).map (exchange i j) := by
  have hai : q.heap[i]? = some q.heap[i] := Array.getElem?_eq_getElem hi
  have hbj : q.heap[j]? = some q.heap[j] := Array.getElem?_eq_getElem hj
  unfold swap
  rw [dif_pos ⟨hi, hj⟩]
  split
  -- The two slots are the same, and nothing happens.
  · rename_i hij
    subst hij
    cases hs : q.slots.get? id with
    | none => rfl
    | some k =>
      simp only [Option.map_some, exchange]
      split
      · rename_i hk
        rw [hk]
      · rfl
  · rename_i hij
    simp only [SortedMap.get?_insert_eq_ite]
    by_cases ha : id = (q.heap[i]).id
    · rw [if_pos ha, (h id i).2 ⟨_, hai, ha.symm⟩, Option.map_some, exchange_left]
    · rw [if_neg ha]
      by_cases hb : id = (q.heap[j]).id
      · rw [if_pos hb, (h id j).2 ⟨_, hbj, hb.symm⟩, Option.map_some, exchange_right]
      · rw [if_neg hb]
        cases hs : q.slots.get? id with
        | none => rfl
        | some k =>
          -- The slot of another message is neither of the two.
          obtain ⟨e, he, hid⟩ := (h id k).1 hs
          have hki : k ≠ i := by
            rintro rfl
            rw [hai] at he
            cases he
            exact ha hid.symm
          have hkj : k ≠ j := by
            rintro rfl
            rw [hbj] at he
            cases he
            exact hb hid.symm
          rw [Option.map_some, exchange_of_ne hki hkj]

theorem swap_eq_self {i j : Nat} (h : ¬(i < q.heap.size ∧ j < q.heap.size)) : q.swap i j = q := by
  unfold swap
  rw [dif_neg h]

theorem Indexed.swap (h : q.Indexed) (i j : Nat) : (q.swap i j).Indexed := by
  by_cases hij : i < q.heap.size ∧ j < q.heap.size
  · obtain ⟨hi, hj⟩ := hij
    intro id slot
    rw [h.get?_slots_swap hi hj, getElem?_heap_swap hi hj, ← h id (exchange i j slot)]
    cases q.slots.get? id with
    | none => simp
    | some k =>
      simp only [Option.map_some, Option.some.injEq]
      constructor
      · rintro rfl
        exact (exchange_exchange i j k).symm
      · rintro rfl
        exact exchange_exchange i j slot
  · rw [swap_eq_self hij]
    exact h

theorem entries_swap_perm (q : HoldQueue) (i j : Nat) : (q.swap i j).entries.Perm q.entries := by
  unfold HoldQueue.swap entries
  split
  · rename_i hij
    split
    · exact List.Perm.refl _
    · exact (Array.swap_perm hij.1 hij.2).toList
  · exact List.Perm.refl _

theorem Indexed.siftUp (h : q.Indexed) (slot : Nat) : (q.siftUp slot).1.Indexed := by
  fun_induction HoldQueue.siftUp q slot with
  | case1 q slot _ _ ih => exact ih (h.swap slot (parent slot))
  | case2 => exact h
  | case3 => exact h

theorem entries_siftUp_perm (q : HoldQueue) (slot : Nat) :
    (q.siftUp slot).1.entries.Perm q.entries := by
  fun_induction HoldQueue.siftUp q slot with
  | case1 q slot _ _ ih => exact ih.trans (q.entries_swap_perm slot (parent slot))
  | case2 => exact List.Perm.refl _
  | case3 => exact List.Perm.refl _

theorem Indexed.siftDown (h : q.Indexed) (slot : Nat) : (q.siftDown slot).Indexed := by
  fun_induction HoldQueue.siftDown q slot with
  | case1 q slot _ _ ih => exact ih (h.swap slot (q.smallerChild slot))
  | case2 => exact h
  | case3 => exact h

theorem entries_siftDown_perm (q : HoldQueue) (slot : Nat) :
    (q.siftDown slot).entries.Perm q.entries := by
  fun_induction HoldQueue.siftDown q slot with
  | case1 q slot _ _ ih => exact ih.trans (q.entries_swap_perm slot (q.smallerChild slot))
  | case2 => exact List.Perm.refl _
  | case3 => exact List.Perm.refl _

theorem Indexed.fix (h : q.Indexed) (slot : Nat) : (q.fix slot).Indexed := by
  simp only [HoldQueue.fix]
  split
  · exact (h.siftUp slot).siftDown slot
  · exact h.siftUp slot

theorem entries_fix_perm (q : HoldQueue) (slot : Nat) : (q.fix slot).entries.Perm q.entries := by
  simp only [HoldQueue.fix]
  split
  · exact (entries_siftDown_perm _ slot).trans (q.entries_siftUp_perm slot)
  · exact q.entries_siftUp_perm slot

/-- Queues with the same entries give the same look-ups. -/
theorem Indexed.get?_eq_of_perm {q' : HoldQueue} (h : q.Indexed) (h' : q'.Indexed)
    (hperm : q'.entries.Perm q.entries) (id : MessageId) : q'.get? id = q.get? id := by
  apply Option.ext
  intro e
  rw [h'.get?_eq_some_iff, h.get?_eq_some_iff, hperm.mem_iff]

end AgreedOrder.HoldQueue
