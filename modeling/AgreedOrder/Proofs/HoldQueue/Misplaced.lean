/-
  AgreedOrder.Proofs.HoldQueue.Misplaced

  A heap with one entry out of place. Some other entry at its slot would bring
  the heap in order, whether that is a smaller or a larger one. The repair of
  the slot brings it in order with the entry it has, and moves that entry in
  one direction only: one that moved up has nothing smaller below it any more.

    * `MisplacedAt` — only the entry at one slot is wrong.
    * `HoleOrder.siftDown_siftUp` — moving an entry down after it moved up
      changes nothing.
    * `repaired_at_one_slot` — what the repair of such a slot comes to.
-/

import AgreedOrder.Proofs.HoldQueue.Guarded

namespace AgreedOrder.HoldQueue

variable {q : HoldQueue} {slot : Nat}

/-- With some entry in place of the one at the slot, no entry would be smaller than its parent. -/
def MisplacedAt (q : HoldQueue) (slot : Nat) : Prop :=
  ∃ e, Ordered { q with heap := q.heap.setIfInBounds slot e }

/-- The entry that would bring the heap in order shows in no pair off the slot. -/
theorem MisplacedAt.holeOrder (h : q.MisplacedAt slot) : q.HoleOrder slot := by
  obtain ⟨e, ordered⟩ := h
  refine (ordered.holeOrder slot).of_agree fun i hi a ha => ?_
  rw [Array.getElem?_setIfInBounds, if_neg (Ne.symm hi)]
  exact ha

/-- Moving the entry down from wherever it moved up to comes to the same as the repair, which moves
    it down only if it did not move up. -/
theorem HoleOrder.siftDown_siftUp (o : q.HoleOrder slot) :
    (q.siftUp slot).1.siftDown (q.siftUp slot).2 = q.fix slot := by
  rcases o.siftUp_cases with ⟨hstay, -⟩ | ⟨hreached, ordered⟩
  · simp only [fix, hstay, if_true]
  · simp only [fix, if_neg hreached]
    exact ordered.siftDown_eq_self _

/-- Where the index is right and only the entry at one slot of the heap is wrong, the repair of that
    slot touches no slot beyond the heap and ends with the same entries, the right index and no
    entry smaller than its parent. If the entry moved up, that alone brought the heap in order; if
    it did not, nothing had changed yet. So to move it down in any case would come to the same. -/
theorem repaired_at_one_slot (indexed : q.Indexed) (hslot : slot < q.heap.size)
    (misplaced : q.MisplacedAt slot) :
    (Guarded.fix q slot = some (q.fix slot) ∧ (q.fix slot).entries.Perm q.entries ∧
      (q.fix slot).Indexed ∧ (q.fix slot).Ordered) ∧
    ((q.siftUp slot).2 ≠ slot → (q.siftUp slot).1.Ordered) ∧
    ((q.siftUp slot).2 = slot → (q.siftUp slot).1 = q) ∧
    (q.siftUp slot).1.siftDown (q.siftUp slot).2 = q.fix slot := by
  have o := misplaced.holeOrder
  refine ⟨⟨Guarded.fix_eq hslot, q.entries_fix_perm slot, indexed.fix slot, ordered_fix slot o⟩,
    ?_, ?_, o.siftDown_siftUp⟩
  · intro hreached
    rcases o.siftUp_cases with ⟨hstay, -⟩ | ⟨-, ordered⟩
    · exact absurd (congrArg Prod.snd hstay) hreached
    · exact ordered
  · intro hstays
    rcases o.siftUp_cases with ⟨hstay, -⟩ | ⟨hreached, -⟩
    · exact congrArg Prod.fst hstay
    · exact absurd hstays hreached

/-- An entry with a number, which is its id as well. -/
def numbered (n : UInt64) : HoldEntry := ⟨n, false, "a", ⟨BitVec.ofNat 128 n.toNat⟩⟩

/-- Four entries, the first of which belongs below all the others. -/
def topHeavy : HoldQueue :=
  (((HoldQueue.empty.behind (numbered 9)).behind (numbered 2)).behind (numbered 3)).behind
    (numbered 5)

/-- The entry goes down two levels, the second time to an only child. -/
theorem repaired_at_one_slot_topHeavy :
    (topHeavy.Indexed ∧ 0 < topHeavy.heap.size ∧ topHeavy.MisplacedAt 0) ∧
      (topHeavy.fix 0).heap = #[numbered 2, numbered 5, numbered 3, numbered 9] ∧
      (topHeavy.fix 0).Ordered := by
  have hindexed : topHeavy.Indexed :=
    (((empty_wellFormed.indexed.behind (by decide)).behind (by decide)).behind (by decide)).behind
      (by decide)
  have hslot : 0 < topHeavy.heap.size := by decide
  have hmisplaced : topHeavy.MisplacedAt 0 := by
    refine ⟨numbered 1, fun i hi => ?_⟩
    have hall : ∀ i < 4, 0 < i →
        lessAt { topHeavy with heap := topHeavy.heap.setIfInBounds 0 (numbered 1) } i (parent i)
          = false := by decide
    by_cases hsize : i < 4
    · exact hall i hsize hi
    · rw [Bool.eq_false_iff]
      exact fun hless => hsize (lt_size_of_lessAt_left hless)
  refine ⟨⟨hindexed, hslot, hmisplaced⟩, by decide +kernel, ?_⟩
  exact (repaired_at_one_slot hindexed hslot hmisplaced).1.2.2.2

end AgreedOrder.HoldQueue
