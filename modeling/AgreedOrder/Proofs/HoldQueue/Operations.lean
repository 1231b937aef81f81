/-
  AgreedOrder.Proofs.HoldQueue.Operations

  A well-formed queue has the right index and a heap in order. Every operation
  keeps that, and acts on the look-ups as on a finite map from which the
  smallest entry can be taken.

    * `get?_push`, `get?_update` — look-ups after an entry came or was re-keyed.
    * `pop?_eq_some`, `pop?_eq_none_iff` — taking out the smallest entry.
-/

import AgreedOrder.Proofs.HoldQueue.Content

namespace AgreedOrder.HoldQueue

variable {q : HoldQueue}

/-- The index is right and the heap is in order. -/
structure WellFormed (q : HoldQueue) : Prop where
  indexed : q.Indexed
  ordered : q.Ordered

theorem empty_wellFormed : (∅ : HoldQueue).WellFormed where
  indexed id slot := by
    constructor
    · intro h
      cases h
    · rintro ⟨e, he, -⟩
      exact absurd he (by simp [EmptyCollection.emptyCollection, empty])
  ordered i _ := by simp [lessAt, EmptyCollection.emptyCollection, empty]

@[simp] theorem get?_empty (id : MessageId) : (∅ : HoldQueue).get? id = none := rfl

/-- A queue that differs at the slot, or has lost entries, is wrong at no other slot. -/
theorem HoleOrder.of_agree {q' : HoldQueue} {slot : Nat} (o : q.HoleOrder slot)
    (hagree : ∀ i : Nat, i ≠ slot → ∀ e, q'.heap[i]? = some e → q.heap[i]? = some e) :
    q'.HoleOrder slot := by
  have hless : ∀ i j, i ≠ slot → j ≠ slot → q.lessAt i j = false → q'.lessAt i j = false := by
    intro i j hi hj h
    rw [Bool.eq_false_iff]
    intro h'
    obtain ⟨a, b, ha, hb, hab⟩ := lessAt_eq_true_iff.1 h'
    rw [lessAt_eq_true_iff.2 ⟨a, b, hagree i hi a ha, hagree j hj b hb, hab⟩] at h
    cases h
  refine ⟨fun i hi his hps => hless i _ his hps (o.off i hi his hps), fun hpos c hc hcs => ?_⟩
  have hlt := parent_lt hc
  have hlt' := parent_lt hpos
  exact hless c _ (by omega) (by omega) (o.grand hpos c hc hcs)

/-- A queue that is wrong at most at a slot it does not have is in order. -/
theorem HoleOrder.ordered_of_size_le {slot : Nat} (o : q.HoleOrder slot)
    (hsize : q.heap.size ≤ slot) : q.Ordered := by
  intro i hi
  by_cases hoff : i ≠ slot ∧ parent i ≠ slot
  · exact o.off i hi hoff.1 hoff.2
  · rw [Bool.eq_false_iff]
    intro h
    have hleft := lt_size_of_lessAt_left h
    have hright := lt_size_of_lessAt_right h
    omega

/-! ## Replacing an entry -/

/-- Putting another entry of the same message at its slot keeps the index right. -/
theorem Indexed.setEntry (h : q.Indexed) {slot : Nat} {e : HoldEntry}
    (hslot : q.slots.get? e.id = some slot) :
    Indexed { q with heap := q.heap.setIfInBounds slot e } := by
  obtain ⟨old, hold, hid⟩ := (h e.id slot).1 hslot
  have hlt : slot < q.heap.size := (Array.getElem?_eq_some_iff.1 hold).1
  intro id k
  rw [Array.getElem?_setIfInBounds]
  by_cases hk : slot = k
  · subst hk
    rw [if_pos rfl, if_pos hlt]
    rw [h id slot, hold]
    simp [hid]
  · rw [if_neg hk]
    exact h id k

theorem Indexed.get?_setEntry (h : q.Indexed) {slot : Nat} {e : HoldEntry}
    (hslot : q.slots.get? e.id = some slot) (id : MessageId) :
    get? { q with heap := q.heap.setIfInBounds slot e } id
      = if id = e.id then some e else q.get? id := by
  obtain ⟨old, hold, -⟩ := (h e.id slot).1 hslot
  have hlt : slot < q.heap.size := (Array.getElem?_eq_some_iff.1 hold).1
  unfold get?
  by_cases hid : id = e.id
  · rw [if_pos hid, hid, hslot, Option.bind_some, Array.getElem?_setIfInBounds, if_pos rfl,
      if_pos hlt]
  · rw [if_neg hid]
    cases hs : q.slots.get? id with
    | none => rfl
    | some k =>
      -- The slot of another message is another one.
      have hne : slot ≠ k := by
        rintro rfl
        obtain ⟨a, ha, haid⟩ := (h id slot).1 hs
        obtain ⟨b, hb, hbid⟩ := (h e.id slot).1 hslot
        rw [ha] at hb
        cases hb
        exact hid (haid.symm.trans hbid)
      rw [Option.bind_some, Option.bind_some, Array.getElem?_setIfInBounds, if_neg hne]

theorem WellFormed.replaceAt (h : q.WellFormed) {slot : Nat} {e : HoldEntry}
    (hslot : q.slots.get? e.id = some slot) : (q.replaceAt slot e).WellFormed := by
  refine ⟨(h.indexed.setEntry hslot).fix slot, ordered_fix slot ?_⟩
  refine (h.ordered.holeOrder slot).of_agree fun i hi a ha => ?_
  rw [Array.getElem?_setIfInBounds, if_neg (Ne.symm hi)] at ha
  exact ha

theorem WellFormed.get?_replaceAt (h : q.WellFormed) {slot : Nat} {e : HoldEntry}
    (hslot : q.slots.get? e.id = some slot) (id : MessageId) :
    (q.replaceAt slot e).get? id = if id = e.id then some e else q.get? id := by
  have hset := h.indexed.setEntry hslot
  rw [← h.indexed.get?_setEntry hslot id]
  exact hset.get?_eq_of_perm (hset.fix slot) (entries_fix_perm _ slot) id

/-! ## Adding an entry -/

/-- The queue with an entry behind the others, before it moves up. -/
def behind (q : HoldQueue) (e : HoldEntry) : HoldQueue :=
  ⟨q.heap.push e, q.slots.insert e.id q.heap.size⟩

theorem push_of_get?_eq_none {e : HoldEntry} (h : q.slots.get? e.id = none) :
    q.push e = ((q.behind e).siftUp q.heap.size).1 := by
  unfold push behind
  rw [h]

theorem Indexed.behind (h : q.Indexed) {e : HoldEntry} (hnew : q.slots.get? e.id = none) :
    (q.behind e).Indexed := by
  intro id k
  unfold HoldQueue.behind
  rw [SortedMap.get?_insert_eq_ite, Array.getElem?_push]
  by_cases hid : id = e.id
  · rw [if_pos hid, Option.some.injEq]
    constructor
    · rintro rfl
      exact ⟨e, if_pos rfl, hid.symm⟩
    · rintro ⟨a, ha, haid⟩
      -- Nothing with the new id stands at an old slot.
      split at ha
      · rename_i hk
        exact hk.symm
      · rw [← hid] at hnew
        rw [(h id k).2 ⟨a, ha, haid⟩] at hnew
        cases hnew
  · rw [if_neg hid, h id k]
    split
    · rename_i hk
      subst hk
      simp [Ne.symm hid]
    · exact Iff.rfl

theorem entries_behind (q : HoldQueue) (e : HoldEntry) :
    (q.behind e).entries = q.entries ++ [e] := by
  simp [entries, behind]

theorem Ordered.upOrder_behind (h : q.Ordered) (e : HoldEntry) :
    (q.behind e).UpOrder q.heap.size := by
  have hsize : (q.behind e).heap.size = q.heap.size + 1 := by simp [behind]
  -- Nothing hangs below the last slot.
  have hnone : ∀ c j, q.heap.size < c → (q.behind e).lessAt c j = false := by
    intro c j hc
    rw [Bool.eq_false_iff]
    intro hl
    have := lt_size_of_lessAt_left hl
    omega
  have hagree : ∀ i : Nat, i ≠ q.heap.size → ∀ a, (q.behind e).heap[i]? = some a →
      q.heap[i]? = some a := by
    intro i hi a ha
    rw [behind, Array.getElem?_push, if_neg hi] at ha
    exact ha
  refine ⟨(h.holeOrder q.heap.size).of_agree hagree, fun c hc hcs => hnone c _ ?_⟩
  have := parent_lt hc
  omega

theorem WellFormed.push (h : q.WellFormed) (e : HoldEntry) : (q.push e).WellFormed := by
  cases hs : q.slots.get? e.id with
  -- An entry with that id is replaced where it stands.
  | some slot =>
    have heq : q.push e = q.replaceAt slot e := by
      unfold HoldQueue.push
      rw [hs]
    rw [heq]
    exact h.replaceAt hs
  | none =>
    rw [push_of_get?_eq_none hs]
    exact ⟨(h.indexed.behind hs).siftUp _, ordered_siftUp _ (h.ordered.upOrder_behind e)⟩

theorem WellFormed.get?_push (h : q.WellFormed) (e : HoldEntry) (id : MessageId) :
    (q.push e).get? id = if id = e.id then some e else q.get? id := by
  cases hs : q.slots.get? e.id with
  | some slot =>
    have heq : q.push e = q.replaceAt slot e := by
      unfold HoldQueue.push
      rw [hs]
    rw [heq]
    exact h.get?_replaceAt hs id
  | none =>
    have hb := h.indexed.behind hs
    rw [push_of_get?_eq_none hs,
      hb.get?_eq_of_perm (hb.siftUp _) (entries_siftUp_perm _ _) id]
    apply Option.ext
    intro a
    rw [hb.get?_eq_some_iff, entries_behind, List.mem_append, List.mem_singleton]
    by_cases hid : id = e.id
    -- No entry from before has the new id.
    · have hold : ∀ b ∈ q.entries, b.id ≠ id := by
        intro b hb' hbid
        have hget := h.indexed.get?_eq_some_iff.2 ⟨hb', hbid⟩
        rw [hid, h.indexed.slots_get?_eq_none_iff.1 hs] at hget
        cases hget
      rw [if_pos hid, Option.some.injEq]
      constructor
      · rintro ⟨ha | ha, haid⟩
        · exact absurd haid (hold a ha)
        · exact ha.symm
      · rintro rfl
        exact ⟨Or.inr rfl, hid.symm⟩
    · rw [if_neg hid, h.indexed.get?_eq_some_iff]
      constructor
      · rintro ⟨ha | rfl, haid⟩
        · exact ⟨ha, haid⟩
        · exact absurd haid.symm hid
      · rintro ⟨ha, haid⟩
        exact ⟨Or.inl ha, haid⟩

/-! ## Giving an entry another key -/

theorem WellFormed.update (h : q.WellFormed) (id : MessageId) (number : UInt64)
    (process : NodeId) (agreed : Bool) : (q.update id number process agreed).WellFormed := by
  unfold HoldQueue.update
  split
  · rename_i slot hslot
    exact h.replaceAt (e := ⟨number, agreed, process, id⟩) hslot
  · exact h

theorem WellFormed.get?_update (h : q.WellFormed) (id : MessageId) (number : UInt64)
    (process : NodeId) (agreed : Bool) (a : MessageId) :
    (q.update id number process agreed).get? a
      = if a = id then (q.get? id).map fun _ => ⟨number, agreed, process, id⟩ else q.get? a := by
  unfold HoldQueue.update
  split
  · rename_i slot hslot
    have hsome : q.get? id ≠ none := fun hn => by
      rw [← h.indexed.slots_get?_eq_none_iff, hslot] at hn
      cases hn
    obtain ⟨old, hold⟩ := Option.ne_none_iff_exists'.1 hsome
    rw [h.get?_replaceAt (e := ⟨number, agreed, process, id⟩) hslot a, hold, Option.map_some]
  · rename_i hslot
    rw [h.indexed.slots_get?_eq_none_iff] at hslot
    split
    · rename_i hid
      rw [hid, hslot, Option.map_none]
    · rfl

/-! ## Taking an entry out -/

/-- What is left of a queue once the entry at a slot is gone and the last one stands there. -/
def without (q : HoldQueue) (slot : Nat) (id : MessageId) : HoldQueue :=
  ⟨(q.swap slot (q.heap.size - 1)).heap.pop, (q.swap slot (q.heap.size - 1)).slots.erase id⟩

theorem getElem?_heap_without {slot : Nat} (hlt : slot < q.heap.size) (id : MessageId) (k : Nat) :
    (q.without slot id).heap[k]?
      = if k < q.heap.size - 1 then q.heap[exchange slot (q.heap.size - 1) k]? else none := by
  unfold without
  rw [Array.getElem?_pop, size_heap_swap, getElem?_heap_swap hlt (by omega)]

theorem removeAt?_eq {slot : Nat} {e : HoldEntry} (he : q.heap[slot]? = some e) :
    q.removeAt? slot = some (e,
      if slot < q.heap.size - 1 then (q.without slot e.id).fix slot else q.without slot e.id) := by
  obtain ⟨hlt, rfl⟩ := Array.getElem?_eq_some_iff.1 he
  unfold removeAt? without
  rw [dif_pos hlt]
  simp

theorem Indexed.without (h : q.Indexed) {slot : Nat} {e : HoldEntry}
    (he : q.heap[slot]? = some e) : (q.without slot e.id).Indexed := by
  have hlt : slot < q.heap.size := (Array.getElem?_eq_some_iff.1 he).1
  have hswap := h.swap slot (q.heap.size - 1)
  -- The entry that goes stands at the last slot after the exchange.
  have hlast : (q.swap slot (q.heap.size - 1)).heap[q.heap.size - 1]? = some e := by
    rw [getElem?_heap_swap hlt (by omega), exchange_right, he]
  intro id k
  unfold HoldQueue.without
  rw [SortedMap.get?_erase_eq_ite, Array.getElem?_pop, size_heap_swap]
  by_cases hid : id = e.id
  · rw [if_pos hid]
    constructor
    · intro hn
      cases hn
    · rintro ⟨a, ha, haid⟩
      split at ha
      · have := hswap.slot_eq ha hlast (haid.trans hid)
        omega
      · cases ha
  · rw [if_neg hid, hswap id k]
    split
    · exact Iff.rfl
    · rename_i hk
      constructor
      · rintro ⟨a, ha, haid⟩
        have hklt : k < (q.swap slot (q.heap.size - 1)).heap.size :=
          (Array.getElem?_eq_some_iff.1 ha).1
        rw [size_heap_swap] at hklt
        have hkeq : k = q.heap.size - 1 := by omega
        rw [hkeq, hlast] at ha
        cases ha
        exact absurd haid.symm hid
      · rintro ⟨a, ha, -⟩
        cases ha

theorem mem_entries_without (h : q.Indexed) {slot : Nat} {e a : HoldEntry}
    (he : q.heap[slot]? = some e) :
    a ∈ (q.without slot e.id).entries ↔ a ∈ q.entries ∧ a.id ≠ e.id := by
  have hlt : slot < q.heap.size := (Array.getElem?_eq_some_iff.1 he).1
  simp only [mem_entries_iff, getElem?_heap_without hlt]
  constructor
  -- What is left stood at another slot, and so has another id.
  · rintro ⟨k, hk⟩
    split at hk
    · rename_i hklt
      refine ⟨⟨_, hk⟩, fun hid => ?_⟩
      have hex := h.slot_eq hk he hid
      have hk' := exchange_exchange slot (q.heap.size - 1) k
      rw [hex, exchange_left] at hk'
      omega
    · cases hk
  -- An entry at another slot stays there, but for the last one, which fills the gap.
  · rintro ⟨⟨k, hk⟩, hne⟩
    have hklt : k < q.heap.size := (Array.getElem?_eq_some_iff.1 hk).1
    have hks : k ≠ slot := by
      rintro rfl
      rw [he] at hk
      cases hk
      exact hne rfl
    refine ⟨exchange slot (q.heap.size - 1) k, ?_⟩
    rw [exchange_exchange, hk, if_pos]
    unfold exchange
    rw [if_neg hks]
    split <;> omega

theorem Ordered.holeOrder_without (h : q.Ordered) {slot : Nat} (hlt : slot < q.heap.size)
    (id : MessageId) : (q.without slot id).HoleOrder slot := by
  refine (h.holeOrder slot).of_agree fun i hi a ha => ?_
  rw [getElem?_heap_without hlt] at ha
  split at ha
  · rw [exchange_of_ne hi (by omega)] at ha
    exact ha
  · cases ha

/-- An entry was taken out of a queue, and the rest of it is left. -/
structure TakenOut (q : HoldQueue) (e : HoldEntry) (rest : HoldQueue) : Prop where
  wellFormed : rest.WellFormed
  held : q.get? e.id = some e
  get?_rest : ∀ id, rest.get? id = if id = e.id then none else q.get? id

theorem WellFormed.takenOut_of_removeAt? (h : q.WellFormed) {slot : Nat} {e : HoldEntry}
    {rest : HoldQueue} (hr : q.removeAt? slot = some (e, rest)) : q.TakenOut e rest := by
  have hlt : slot < q.heap.size := by
    unfold removeAt? at hr
    split at hr
    · assumption
    · cases hr
  obtain ⟨a, ha⟩ : ∃ a, q.heap[slot]? = some a := ⟨_, Array.getElem?_eq_getElem hlt⟩
  rw [removeAt?_eq ha, Option.some.injEq, Prod.mk.injEq] at hr
  obtain ⟨rfl, hrest⟩ := hr
  have hindexed := h.indexed.without ha
  have hhole := h.ordered.holeOrder_without hlt a.id
  have hsize : (q.without slot a.id).heap.size = q.heap.size - 1 := by simp [without]
  -- The repair is skipped if the gap was the last slot, which leaves nothing to repair.
  have hwf : rest.WellFormed ∧ rest.entries.Perm (q.without slot a.id).entries := by
    split at hrest
    · subst hrest
      exact ⟨⟨hindexed.fix slot, ordered_fix slot hhole⟩, entries_fix_perm _ slot⟩
    · subst hrest
      exact ⟨⟨hindexed, hhole.ordered_of_size_le (by omega)⟩, List.Perm.refl _⟩
  obtain ⟨hwf, hperm⟩ := hwf
  refine ⟨hwf, h.indexed.get?_eq_some_iff.2 ⟨mem_entries_iff.2 ⟨slot, ha⟩, rfl⟩, fun id => ?_⟩
  apply Option.ext
  intro b
  rw [hwf.indexed.get?_eq_some_iff, hperm.mem_iff, mem_entries_without h.indexed ha]
  split
  · rename_i hid
    constructor
    · rintro ⟨⟨-, hne⟩, hbid⟩
      exact absurd (hbid.trans hid) hne
    · intro hn
      cases hn
  · rename_i hid
    rw [h.indexed.get?_eq_some_iff]
    constructor
    · rintro ⟨⟨hb, -⟩, hbid⟩
      exact ⟨hb, hbid⟩
    · rintro ⟨hb, hbid⟩
      exact ⟨⟨hb, fun hne => hid (hbid.symm.trans hne)⟩, hbid⟩

/-- The entry that `pop?` takes out is the smallest one. -/
theorem WellFormed.pop?_eq_some (h : q.WellFormed) {e : HoldEntry} {rest : HoldQueue}
    (hp : q.pop? = some (e, rest)) :
    q.TakenOut e rest ∧ ∀ id a, q.get? id = some a → a ≠ e → compare e a = .lt := by
  have hout := h.takenOut_of_removeAt? hp
  refine ⟨hout, fun id a ha hne => ?_⟩
  have hlt : 0 < q.heap.size := by
    unfold pop? removeAt? at hp
    split at hp
    · assumption
    · cases hp
  obtain ⟨b, hb⟩ : ∃ b, q.heap[0]? = some b := ⟨_, Array.getElem?_eq_getElem hlt⟩
  have hbe : b = e := by
    rw [pop?, removeAt?_eq hb, Option.some.injEq, Prod.mk.injEq] at hp
    exact hp.1
  subst hbe
  obtain ⟨i, hi⟩ := mem_entries_iff.1 (h.indexed.get?_eq_some_iff.1 ha).1
  -- Nothing is smaller than the front, and no two entries are equal.
  have hnot := h.ordered.not_lessAt_zero i
  cases hc : compare b a with
  | lt => rfl
  | eq => exact absurd (Std.LawfulEqCmp.eq_of_compare hc).symm hne
  | gt =>
    rw [lessAt_eq_true_iff.2 ⟨a, b, hi, hb, Std.OrientedCmp.lt_of_gt hc⟩] at hnot
    cases hnot

/-- The entry at the front is the one that would be taken out. -/
theorem peek?_eq (q : HoldQueue) : q.peek? = q.pop?.map (·.1) := by
  unfold peek? pop?
  cases he : q.heap[0]? with
  | some e =>
    rw [removeAt?_eq he]
    rfl
  | none =>
    unfold removeAt?
    rw [dif_neg (by simpa using he)]
    rfl

theorem WellFormed.size_eq_zero_iff (h : q.WellFormed) :
    q.size = 0 ↔ ∀ id, q.get? id = none := by
  constructor
  · intro hsize id
    cases hg : q.get? id with
    | none => rfl
    | some a =>
      obtain ⟨i, hi⟩ := mem_entries_iff.1 (h.indexed.get?_eq_some_iff.1 hg).1
      have hlt : i < q.heap.size := (Array.getElem?_eq_some_iff.1 hi).1
      unfold size at hsize
      omega
  · intro hnone
    refine (Nat.eq_zero_or_pos q.size).resolve_right fun hpos => ?_
    have hlt : 0 < q.heap.size := hpos
    have hmem : q.heap[0] ∈ q.entries := mem_entries_iff.2 ⟨0, Array.getElem?_eq_getElem hlt⟩
    have hget := h.indexed.get?_eq_some_iff.2 ⟨hmem, rfl⟩
    rw [hnone] at hget
    cases hget

theorem WellFormed.pop?_eq_none_iff (h : q.WellFormed) :
    q.pop? = none ↔ ∀ id, q.get? id = none := by
  rw [← h.size_eq_zero_iff]
  unfold pop? removeAt? size
  split
  · rename_i hlt
    constructor
    · intro hn
      cases hn
    · intro hz
      omega
  · rename_i hlt
    exact ⟨fun _ => by omega, fun _ => rfl⟩

end AgreedOrder.HoldQueue
