/-
  AgreedOrder.HoldQueue

  The messages a member holds back, smallest key first. The queue is a binary
  heap of entries beside an index from the id of a message to its slot, so an
  entry can be found, re-keyed or removed without a search.

    * `push`, `pop?`, `remove?`, `update` — the operations.
    * `siftUp`, `siftDown`, `fix` — the repair of a heap that is wrong at one
      slot.
-/

import AgreedOrder.Envelope
import AgreedOrder.SortedMap

namespace AgreedOrder

/-! ## Entries -/

/-- A message that waits for its place. The number is the one proposed here until the message is
    agreed, and then the agreed one. The process that breaks ties is the sender until the message
    is agreed, and then the process whose proposal won. -/
structure HoldEntry where
  number : UInt64
  agreed : Bool
  process : NodeId
  id : MessageId
  deriving DecidableEq

namespace HoldEntry

/-- Entries are ordered by number. At equal numbers one that is not agreed stands before one that
    is, since its number can only grow; then the process and the id decide. -/
def order : HoldEntry → HoldEntry → Ordering :=
  compareLex (compareOn number)
    (compareLex (compareOn agreed) (compareLex (compareOn process) (compareOn id)))

instance : Ord HoldEntry := ⟨order⟩

theorem compare_def (a b : HoldEntry) : compare a b = order a b := rfl

instance transCmp_order : Std.TransCmp order := by
  unfold order
  infer_instance

instance : Std.TransOrd HoldEntry := transCmp_order

theorem eq_of_order_eq {a b : HoldEntry} (h : order a b = .eq) : a = b := by
  simp only [order, compareLex_eq_eq, compareOn] at h
  obtain ⟨h₁, h₂, h₃, h₄⟩ := h
  cases a
  cases b
  simp only [HoldEntry.mk.injEq]
  exact ⟨Std.LawfulEqCmp.eq_of_compare h₁, Std.LawfulEqCmp.eq_of_compare h₂,
    Std.LawfulEqCmp.eq_of_compare h₃, Std.LawfulEqCmp.eq_of_compare h₄⟩

instance : Std.LawfulEqOrd HoldEntry where
  compare_self := Std.ReflCmp.compare_self
  eq_of_compare h := eq_of_order_eq h

/-- Entries in the order in which they are released. -/
def sort (es : List HoldEntry) : List HoldEntry := es.mergeSort fun a b => (compare a b).isLE

end HoldEntry

/-! ## The queue -/

/-- Entries in heap order, and the slot of each by the id of its message. -/
structure HoldQueue where
  heap : Array HoldEntry
  slots : SortedMap MessageId Nat

namespace HoldQueue

/-- The queue that holds nothing. -/
def empty : HoldQueue := ⟨#[], ∅⟩

instance : EmptyCollection HoldQueue := ⟨empty⟩

instance : Inhabited HoldQueue := ⟨empty⟩

/-- The number of entries. -/
def size (q : HoldQueue) : Nat := q.heap.size

/-- Whether a message is held. -/
def contains (q : HoldQueue) (id : MessageId) : Bool := q.slots.contains id

/-- The entry of a message. -/
def get? (q : HoldQueue) (id : MessageId) : Option HoldEntry :=
  (q.slots.get? id).bind fun slot => q.heap[slot]?

/-- The smallest entry. -/
def peek? (q : HoldQueue) : Option HoldEntry := q.heap[0]?

/-! ## Repair -/

/-- Whether the entry at the first slot is smaller than the one at the second. -/
def lessAt (q : HoldQueue) (i j : Nat) : Bool :=
  match q.heap[i]?, q.heap[j]? with
  | some a, some b => (compare a b).isLT
  | _, _ => false

/-- Exchange the entries at two slots. -/
def swap (q : HoldQueue) (i j : Nat) : HoldQueue :=
  if h : i < q.heap.size ∧ j < q.heap.size then
    if i = j then q
    else
      let a := q.heap[i]
      let b := q.heap[j]
      ⟨q.heap.swap i j h.1 h.2, (q.slots.insert b.id i).insert a.id j⟩
  else q

@[simp] theorem size_heap_swap (q : HoldQueue) (i j : Nat) :
    (q.swap i j).heap.size = q.heap.size := by
  unfold swap
  split
  · split
    · rfl
    · simp
  · rfl

/-- The slot above a slot. -/
def parent (slot : Nat) : Nat := (slot - 1) / 2

/-- Move the entry at a slot up while it is smaller than its parent. Gives the slot it ends at. -/
def siftUp (q : HoldQueue) (slot : Nat) : HoldQueue × Nat :=
  if _h : 0 < slot then
    if q.lessAt slot (parent slot) then
      siftUp (q.swap slot (parent slot)) (parent slot)
    else (q, slot)
  else (q, slot)
termination_by slot
decreasing_by
  unfold parent
  omega

/-- The smaller of the two slots below a slot, the left one if there is no right one. -/
def smallerChild (q : HoldQueue) (slot : Nat) : Nat :=
  if q.lessAt (2 * slot + 2) (2 * slot + 1) then 2 * slot + 2 else 2 * slot + 1

theorem lt_smallerChild (q : HoldQueue) (slot : Nat) : slot < q.smallerChild slot := by
  unfold smallerChild
  split <;> omega

/-- Move the entry at a slot down while one below it is smaller. -/
def siftDown (q : HoldQueue) (slot : Nat) : HoldQueue :=
  if _h : 2 * slot + 1 < q.heap.size then
    if q.lessAt (q.smallerChild slot) slot then
      siftDown (q.swap slot (q.smallerChild slot)) (q.smallerChild slot)
    else q
  else q
termination_by q.heap.size - slot
decreasing_by
  -- The slot moves down, and the size stays.
  have := q.lt_smallerChild slot
  rw [size_heap_swap]
  omega

@[simp] theorem size_heap_siftUp (q : HoldQueue) (slot : Nat) :
    (q.siftUp slot).1.heap.size = q.heap.size := by
  fun_induction siftUp q slot with
  | case1 q slot _ _ ih => rw [ih, size_heap_swap]
  | case2 => rfl
  | case3 => rfl

@[simp] theorem size_heap_siftDown (q : HoldQueue) (slot : Nat) :
    (q.siftDown slot).heap.size = q.heap.size := by
  fun_induction siftDown q slot with
  | case1 q slot _ _ ih => rw [ih, size_heap_swap]
  | case2 => rfl
  | case3 => rfl

/-- Put the entry at a slot where it belongs: up, or down if it did not move up. -/
def fix (q : HoldQueue) (slot : Nat) : HoldQueue :=
  let (q, reached) := q.siftUp slot
  if reached = slot then q.siftDown slot else q

@[simp] theorem size_heap_fix (q : HoldQueue) (slot : Nat) :
    (q.fix slot).heap.size = q.heap.size := by
  simp only [fix]
  split <;> simp

/-! ## Operations -/

/-- Put another entry at a slot, and where it belongs. -/
def replaceAt (q : HoldQueue) (slot : Nat) (e : HoldEntry) : HoldQueue :=
  fix { q with heap := q.heap.setIfInBounds slot e } slot

/-- Hold an entry, in place of an earlier one of the same message. -/
def push (q : HoldQueue) (e : HoldEntry) : HoldQueue :=
  match q.slots.get? e.id with
  | some slot => q.replaceAt slot e
  | none =>
    (siftUp ⟨q.heap.push e, q.slots.insert e.id q.heap.size⟩ q.heap.size).1

/-- Give a held message another key. Nothing changes if it is not held. -/
def update (q : HoldQueue) (id : MessageId) (number : UInt64) (process : NodeId) (agreed : Bool) :
    HoldQueue :=
  match q.slots.get? id with
  | some slot => q.replaceAt slot ⟨number, agreed, process, id⟩
  | none => q

/-- Take out the entry at a slot. -/
def removeAt? (q : HoldQueue) (slot : Nat) : Option (HoldEntry × HoldQueue) :=
  if h : slot < q.heap.size then
    let removed := q.heap[slot]
    -- The last entry takes the free slot, and may belong further up or down.
    let q := q.swap slot (q.heap.size - 1)
    let q : HoldQueue := ⟨q.heap.pop, q.slots.erase removed.id⟩
    some (removed, if slot < q.heap.size then q.fix slot else q)
  else none

/-- Take out the smallest entry. -/
def pop? (q : HoldQueue) : Option (HoldEntry × HoldQueue) := q.removeAt? 0

/-- Take out the entry of a message. -/
def remove? (q : HoldQueue) (id : MessageId) : Option (HoldEntry × HoldQueue) :=
  (q.slots.get? id).bind q.removeAt?

theorem size_of_removeAt?_eq_some {q q' : HoldQueue} {slot : Nat} {e : HoldEntry}
    (h : q.removeAt? slot = some (e, q')) : q'.size + 1 = q.size := by
  unfold removeAt? at h
  split at h
  · rename_i hlt
    simp only [Option.some.injEq, Prod.mk.injEq] at h
    obtain ⟨-, rfl⟩ := h
    unfold size
    split <;> simp <;> omega
  · simp at h

theorem size_of_pop?_eq_some {q q' : HoldQueue} {e : HoldEntry} (h : q.pop? = some (e, q')) :
    q'.size + 1 = q.size :=
  size_of_removeAt?_eq_some h

/-- Every entry, in the order in which they are taken out. -/
def drain (q : HoldQueue) : List HoldEntry × HoldQueue :=
  match h : q.pop? with
  | none => ([], q)
  | some (e, rest) =>
    have := size_of_pop?_eq_some h
    let (es, q) := drain rest
    (e :: es, q)
termination_by q.size
decreasing_by omega

end HoldQueue

end AgreedOrder
