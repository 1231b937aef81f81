/-
  AgreedOrder.Proofs.HoldQueue.Guarded

  The operations of a hold queue with a check before each access to a slot: an
  operation that touches a slot beyond the heap comes to nothing. In a queue
  whose index is right no operation does, and each comes to the same as
  without the checks.

    * `less`, `swap` — the accesses to two slots.
    * `fix_eq` — a repair that starts within the heap stays there.
    * `push_eq`, `update_eq`, `remove_eq`, `pop_eq`, `get_eq` — the operations.
-/

import AgreedOrder.Proofs.HoldQueue.Operations

namespace AgreedOrder.HoldQueue.Guarded

variable {q : HoldQueue}

/-! ## Repair -/

/-- Compare the entries at two slots. -/
def less (q : HoldQueue) (i j : Nat) : Option Bool :=
  if i < q.heap.size ∧ j < q.heap.size then some (q.lessAt i j) else none

/-- Exchange the entries at two slots. Neither is touched if they are the same. -/
def swap (q : HoldQueue) (i j : Nat) : Option HoldQueue :=
  if i = j ∨ i < q.heap.size ∧ j < q.heap.size then some (q.swap i j) else none

/-- Move the entry at a slot up while it is smaller than its parent. -/
def siftUp (q : HoldQueue) (slot : Nat) : Option (HoldQueue × Nat) :=
  if _h : 0 < slot then
    (less q slot (parent slot)).bind fun isLess =>
      if isLess then (swap q slot (parent slot)).bind fun q => siftUp q (parent slot)
      else some (q, slot)
  else some (q, slot)
termination_by slot
decreasing_by exact parent_lt _h

/-- One of the two slots below a slot. -/
def child (slot : Nat) (right : Bool) : Nat := if right then 2 * slot + 2 else 2 * slot + 1

theorem lt_child (slot : Nat) (right : Bool) : slot < child slot right := by
  unfold child
  split <;> omega

/-- Whether the smaller one of the two slots below a slot is the right one, if there is one. -/
def rightIsSmaller (len : Nat) (q : HoldQueue) (slot : Nat) : Option Bool :=
  if 2 * slot + 2 < len then less q (2 * slot + 2) (2 * slot + 1) else some false

/-- Move the entry at a slot down while one below it is smaller, in a heap of some length. -/
def siftDown (len : Nat) (q : HoldQueue) (slot : Nat) : Option HoldQueue :=
  if _h : 2 * slot + 1 < len then
    (rightIsSmaller len q slot).bind fun right =>
      (less q (child slot right) slot).bind fun isLess =>
        if isLess then
          (swap q slot (child slot right)).bind fun q => siftDown len q (child slot right)
        else some q
  else some q
termination_by len - slot
decreasing_by
  have := lt_child slot right
  omega

/-- Put the entry at a slot where it belongs. -/
def fix (q : HoldQueue) (slot : Nat) : Option HoldQueue :=
  (siftUp q slot).bind fun (q, reached) =>
    if reached = slot then siftDown q.heap.size q slot else some q

theorem less_eq {i j : Nat} (hi : i < q.heap.size) (hj : j < q.heap.size) :
    less q i j = some (q.lessAt i j) := if_pos ⟨hi, hj⟩

theorem swap_eq {i j : Nat} (hi : i < q.heap.size) (hj : j < q.heap.size) :
    swap q i j = some (q.swap i j) := if_pos (Or.inr ⟨hi, hj⟩)

theorem siftUp_eq {slot : Nat} (h : slot < q.heap.size) : siftUp q slot = some (q.siftUp slot) := by
  fun_induction HoldQueue.siftUp q slot with
  | case1 q slot hpos hless ih =>
    have hparent : parent slot < q.heap.size := Nat.lt_trans (parent_lt hpos) h
    rw [siftUp, dif_pos hpos, less_eq h hparent, Option.bind_some, if_pos hless,
      swap_eq h hparent, Option.bind_some]
    exact ih (by rw [size_heap_swap]; exact hparent)
  | case2 q slot hpos hless =>
    have hparent : parent slot < q.heap.size := Nat.lt_trans (parent_lt hpos) h
    rw [siftUp, dif_pos hpos, less_eq h hparent, Option.bind_some, if_neg hless]
  | case3 q slot hpos => rw [siftUp, dif_neg hpos]

/-- The child that the checked repair goes on to is the one that the unchecked repair goes on to. -/
theorem rightIsSmaller_eq {slot : Nat} (h : 2 * slot + 1 < q.heap.size) :
    ∃ right, rightIsSmaller q.heap.size q slot = some right ∧
      child slot right = q.smallerChild slot := by
  unfold rightIsSmaller HoldQueue.smallerChild child
  split
  · rename_i hright
    exact ⟨_, less_eq hright h, rfl⟩
  -- Without a right child, nothing is smaller than the left one.
  · rename_i hright
    refine ⟨false, rfl, ?_⟩
    rw [if_neg Bool.false_ne_true, if_neg fun hless => hright (lt_size_of_lessAt_left hless)]

theorem siftDown_eq (q : HoldQueue) (slot : Nat) :
    siftDown q.heap.size q slot = some (q.siftDown slot) := by
  fun_induction HoldQueue.siftDown q slot with
  | case1 q slot hchild hless ih =>
    obtain ⟨right, hright, heq⟩ := rightIsSmaller_eq hchild
    have hc := smallerChild_lt_size hchild
    have hs : slot < q.heap.size := by omega
    rw [siftDown, dif_pos hchild, hright, Option.bind_some, heq, less_eq hc hs, Option.bind_some,
      if_pos hless, swap_eq hs hc, Option.bind_some]
    rw [size_heap_swap] at ih
    exact ih
  | case2 q slot hchild hless =>
    obtain ⟨right, hright, heq⟩ := rightIsSmaller_eq hchild
    have hc := smallerChild_lt_size hchild
    have hs : slot < q.heap.size := by omega
    rw [siftDown, dif_pos hchild, hright, Option.bind_some, heq, less_eq hc hs, Option.bind_some,
      if_neg hless]
  | case3 q slot hchild => rw [siftDown, dif_neg hchild]

/-- A repair that starts within the heap stays there. -/
theorem fix_eq {slot : Nat} (h : slot < q.heap.size) : fix q slot = some (q.fix slot) := by
  simp only [fix, HoldQueue.fix, siftUp_eq h, Option.bind_some]
  split
  · exact siftDown_eq _ _
  · rfl

/-! ## Operations -/

/-- The entry of a message. -/
def get (q : HoldQueue) (id : MessageId) : Option (Option HoldEntry) :=
  match q.slots.get? id with
  | some slot => (q.heap[slot]?).map some
  | none => some none

/-- Put another entry at a slot, and where it belongs. -/
def replaceAt (q : HoldQueue) (slot : Nat) (e : HoldEntry) : Option HoldQueue :=
  if slot < q.heap.size then fix { q with heap := q.heap.setIfInBounds slot e } slot else none

/-- Hold an entry, in place of an earlier one of the same message. -/
def push (q : HoldQueue) (e : HoldEntry) : Option HoldQueue :=
  match q.slots.get? e.id with
  | some slot => replaceAt q slot e
  | none => (siftUp (q.behind e) q.heap.size).map (·.1)

/-- Give a held message another key. -/
def update (q : HoldQueue) (id : MessageId) (number : UInt64) (process : NodeId) (agreed : Bool) :
    Option HoldQueue :=
  match q.slots.get? id with
  | some slot => replaceAt q slot ⟨number, agreed, process, id⟩
  | none => some q

/-- Exchange the entry at a slot with the last one, and take that out. No entry is taken out if the
    queue does not have the slot. -/
def removeAt (q : HoldQueue) (slot : Nat) : Option (Option (HoldEntry × HoldQueue)) :=
  if slot < q.heap.size then
    (swap q slot (q.heap.size - 1)).bind fun swapped =>
      (swapped.heap.back?).bind fun removed =>
        let rest : HoldQueue := ⟨swapped.heap.pop, swapped.slots.erase removed.id⟩
        if slot < rest.heap.size then (fix rest slot).map fun rest => some (removed, rest)
        else some (some (removed, rest))
  else some none

/-- Take out the smallest entry. -/
def pop (q : HoldQueue) : Option (Option (HoldEntry × HoldQueue)) := removeAt q 0

/-- Take out the entry of a message. -/
def remove (q : HoldQueue) (id : MessageId) : Option (Option (HoldEntry × HoldQueue)) :=
  match q.slots.get? id with
  | some slot => removeAt q slot
  | none => some none

/-- The slot that a right index tells is one of the heap. -/
theorem slot_lt (h : q.Indexed) {id : MessageId} {slot : Nat} (hs : q.slots.get? id = some slot) :
    slot < q.heap.size := by
  obtain ⟨e, he, -⟩ := (h id slot).1 hs
  exact (Array.getElem?_eq_some_iff.1 he).1

theorem get_eq (h : q.Indexed) (id : MessageId) : get q id = some (q.get? id) := by
  unfold get HoldQueue.get?
  cases hs : q.slots.get? id with
  | none => rfl
  | some slot =>
    obtain ⟨e, he, -⟩ := (h id slot).1 hs
    dsimp only
    rw [Option.bind_some, he]
    rfl

theorem replaceAt_eq {slot : Nat} (h : slot < q.heap.size) (e : HoldEntry) :
    replaceAt q slot e = some (q.replaceAt slot e) := by
  unfold replaceAt HoldQueue.replaceAt
  rw [if_pos h]
  exact fix_eq (by rw [Array.size_setIfInBounds]; exact h)

theorem push_eq (h : q.Indexed) (e : HoldEntry) : push q e = some (q.push e) := by
  unfold push
  cases hs : q.slots.get? e.id with
  | some slot =>
    unfold HoldQueue.push
    rw [hs]
    exact replaceAt_eq (slot_lt h hs) e
  | none =>
    -- The new entry stands at the last slot.
    have hlast : q.heap.size < (q.behind e).heap.size := by simp [behind]
    dsimp only
    rw [siftUp_eq hlast, push_of_get?_eq_none hs]
    rfl

theorem update_eq (h : q.Indexed) (id : MessageId) (number : UInt64) (process : NodeId)
    (agreed : Bool) :
    update q id number process agreed = some (q.update id number process agreed) := by
  unfold update HoldQueue.update
  cases hs : q.slots.get? id with
  | some slot => exact replaceAt_eq (slot_lt h hs) _
  | none => rfl

theorem removeAt_eq (q : HoldQueue) (slot : Nat) : removeAt q slot = some (q.removeAt? slot) := by
  unfold removeAt
  split
  · rename_i h
    obtain ⟨e, he⟩ : ∃ e, q.heap[slot]? = some e := ⟨_, Array.getElem?_eq_getElem h⟩
    -- After the exchange the entry stands at the last slot.
    have hback : (q.swap slot (q.heap.size - 1)).heap.back? = some e := by
      rw [Array.back?_eq_getElem?, size_heap_swap, getElem?_heap_swap h (by omega), exchange_right,
        he]
    rw [swap_eq h (by omega), Option.bind_some, hback, Option.bind_some, removeAt?_eq he]
    dsimp only
    rw [Array.size_pop, size_heap_swap]
    split
    · rename_i hrest
      rw [fix_eq (by rw [Array.size_pop, size_heap_swap]; exact hrest)]
      rfl
    · rfl
  · rename_i h
    unfold HoldQueue.removeAt?
    rw [dif_neg h]

theorem pop_eq (q : HoldQueue) : pop q = some q.pop? := removeAt_eq q 0

theorem remove_eq (q : HoldQueue) (id : MessageId) : remove q id = some (q.remove? id) := by
  unfold remove HoldQueue.remove?
  cases q.slots.get? id with
  | some slot => exact removeAt_eq q slot
  | none => rfl

end AgreedOrder.HoldQueue.Guarded
