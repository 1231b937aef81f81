/-
  AgreedOrder.Proofs.HoldQueue.Refinement

  A hold queue is a finite map from messages to places, from which the least
  entry can be taken. Whatever is asked of a new queue, the map gives the same
  answers and holds the same afterwards; and no slot beyond the heap is
  touched on the way.

    * `Operation`, `perform`, `run` — what can be asked of a queue.
    * `HoldMap` — the map, and what the same operations are there.
    * `Represents.perform` — one operation.
    * `run_refines` — any number of them.
-/

import AgreedOrder.Proofs.HoldQueue.Guarded
import AgreedOrder.Proofs.HoldQueue.Order

namespace AgreedOrder

/-! ## Operations -/

namespace HoldQueue

/-- Something that is asked of a queue. -/
inductive Operation
  | push (e : HoldEntry)
  | pop
  | remove (id : MessageId)
  | update (id : MessageId) (number : UInt64) (process : NodeId) (agreed : Bool)
  | get (id : MessageId)
  | contains (id : MessageId)
  | peek

/-- What an operation answers. -/
inductive Answer
  | nothing
  | flag (b : Bool)
  | entry (e : Option HoldEntry)
  deriving DecidableEq

/-- The answer and the queue when an entry was to be taken out. -/
def taken (q : HoldQueue) : Option (HoldEntry × HoldQueue) → Answer × HoldQueue
  | some (e, rest) => (.entry (some e), rest)
  | none => (.entry none, q)

/-- Carry out an operation. -/
def perform (q : HoldQueue) : Operation → Answer × HoldQueue
  | .push e => (.nothing, q.push e)
  | .pop => q.taken q.pop?
  | .remove id => q.taken (q.remove? id)
  | .update id number process agreed => (.flag (q.contains id), q.update id number process agreed)
  | .get id => (.entry (q.get? id), q)
  | .contains id => (.flag (q.contains id), q)
  | .peek => (.entry q.peek?, q)

/-- Carry out operations one after the other. -/
def run (q : HoldQueue) : List Operation → List Answer × HoldQueue
  | [] => ([], q)
  | o :: os =>
    let (answer, q) := q.perform o
    let (answers, q) := run q os
    (answer :: answers, q)

/-- Carry out an operation that touches no slot beyond the heap. -/
def Guarded.perform (q : HoldQueue) : Operation → Option (Answer × HoldQueue)
  | .push e => (push q e).map (.nothing, ·)
  | .pop => (pop q).map q.taken
  | .remove id => (remove q id).map q.taken
  | .update id number process agreed =>
    (update q id number process agreed).map (.flag (q.contains id), ·)
  | .get id => (get q id).map (.entry ·, q)
  | .contains id => some (.flag (q.contains id), q)
  | .peek => some (.entry q.peek?, q)

/-- Carry out operations one after the other, none of which touches a slot beyond the heap. -/
def Guarded.run (q : HoldQueue) : List Operation → Option (List Answer × HoldQueue)
  | [] => some ([], q)
  | o :: os =>
    (Guarded.perform q o).bind fun next =>
      (Guarded.run next.2 os).map fun after => (next.1 :: after.1, after.2)

end HoldQueue

/-! ## The map -/

/-- The place of a held message: all that its entry says of it. -/
structure Place where
  number : UInt64
  agreed : Bool
  process : NodeId
  deriving DecidableEq

/-- The entry of a message with a place. -/
def Place.entry (p : Place) (id : MessageId) : HoldEntry := ⟨p.number, p.agreed, p.process, id⟩

/-- The place that an entry gives its message. -/
def HoldEntry.place (e : HoldEntry) : Place := ⟨e.number, e.agreed, e.process⟩

/-- The places of messages. -/
abbrev HoldMap := SortedMap MessageId Place

namespace HoldMap

open HoldQueue (Operation Answer)

/-- The entries of the map. -/
def held (m : HoldMap) : List HoldEntry := m.entries.map fun x => x.2.entry x.1

/-- The entry of a message. -/
def lookup? (m : HoldMap) (id : MessageId) : Option HoldEntry := (m.get? id).map (·.entry id)

/-- The entry that no other one precedes. -/
def least? (m : HoldMap) : Option HoldEntry :=
  m.held.find? fun e => m.held.all fun a => !decide (a.Precedes e)

/-- Carry out an operation. -/
def perform (m : HoldMap) : Operation → Answer × HoldMap
  | .push e => (.nothing, m.insert e.id e.place)
  | .pop => (.entry m.least?, (m.least?.map fun e => m.erase e.id).getD m)
  | .remove id => (.entry (m.lookup? id), m.erase id)
  | .update id number process agreed =>
    (.flag (m.contains id), if m.contains id then m.insert id ⟨number, agreed, process⟩ else m)
  | .get id => (.entry (m.lookup? id), m)
  | .contains id => (.flag (m.contains id), m)
  | .peek => (.entry m.least?, m)

/-- Carry out operations one after the other. -/
def run (m : HoldMap) : List Operation → List Answer × HoldMap
  | [] => ([], m)
  | o :: os =>
    let (answer, m) := m.perform o
    let (answers, m) := run m os
    (answer :: answers, m)

variable {m : HoldMap} {e : HoldEntry}

theorem lookup?_eq_some_iff {id : MessageId} :
    m.lookup? id = some e ↔ m.get? id = some e.place ∧ e.id = id := by
  unfold lookup?
  rw [Option.map_eq_some_iff]
  constructor
  · rintro ⟨p, hp, rfl⟩
    exact ⟨hp, rfl⟩
  · rintro ⟨hp, rfl⟩
    exact ⟨e.place, hp, rfl⟩

theorem mem_held_iff : e ∈ m.held ↔ m.lookup? e.id = some e := by
  rw [lookup?_eq_some_iff, and_iff_left rfl, ← m.mem_entries_iff]
  unfold held
  rw [List.mem_map]
  constructor
  · rintro ⟨⟨id, p⟩, hmem, rfl⟩
    exact hmem
  · intro hmem
    exact ⟨_, hmem, rfl⟩

theorem least?_eq_none (h : ∀ id, m.lookup? id = none) : m.least? = none := by
  unfold least?
  rw [List.find?_eq_none]
  intro e he
  rw [mem_held_iff, h] at he
  cases he

/-- There is only one entry that no other one precedes. -/
theorem least?_eq_some (he : m.lookup? e.id = some e)
    (hmin : ∀ a, m.lookup? a.id = some a → ¬a.Precedes e) : m.least? = some e := by
  cases hl : m.least? with
  | none =>
    have hnot := List.find?_eq_none.1 hl e (mem_held_iff.2 he)
    refine absurd ?_ hnot
    rw [List.all_eq_true]
    intro a ha
    rw [Bool.not_eq_true', decide_eq_false_iff_not]
    exact hmin a (mem_held_iff.1 ha)
  | some b =>
    have hb : b ∈ m.held := List.mem_of_find?_eq_some hl
    have hleast := List.find?_some hl
    rw [List.all_eq_true] at hleast
    have hnot := hleast e (mem_held_iff.2 he)
    rw [Bool.not_eq_true', decide_eq_false_iff_not] at hnot
    rcases HoldEntry.precedes_or_eq_or_precedes b e with hlt | rfl | hlt
    · exact absurd hlt (hmin b (mem_held_iff.1 hb))
    · rfl
    · exact absurd hlt hnot

theorem lookup?_erase (id a : MessageId) :
    HoldMap.lookup? (m.erase id) a = if a = id then none else m.lookup? a := by
  unfold lookup?
  rw [SortedMap.get?_erase_eq_ite]
  split <;> rfl

theorem lookup?_insert (id a : MessageId) (p : Place) :
    HoldMap.lookup? (m.insert id p) a = if a = id then some (p.entry id) else m.lookup? a := by
  unfold lookup?
  rw [SortedMap.get?_insert_eq_ite]
  split
  · rename_i ha
    rw [ha]
    rfl
  · rfl

theorem contains_eq (id : MessageId) : m.contains id = (m.lookup? id).isSome := by
  unfold SortedMap.contains lookup?
  rw [Option.isSome_map]

end HoldMap

/-! ## One operation -/

namespace HoldQueue

variable {q rest : HoldQueue} {m : HoldMap} {e : HoldEntry}

/-- A well-formed queue that holds what a map holds. -/
structure Represents (q : HoldQueue) (m : HoldMap) : Prop where
  wellFormed : q.WellFormed
  get?_eq : ∀ id, q.get? id = m.lookup? id

theorem empty_represents : (∅ : HoldQueue).Represents ∅ := ⟨empty_wellFormed, fun _ => rfl⟩

theorem Represents.contains_eq (h : q.Represents m) (id : MessageId) :
    q.contains id = m.contains id := by
  rw [h.wellFormed.indexed.contains_eq, h.get?_eq, HoldMap.contains_eq]

theorem Represents.push (h : q.Represents m) (e : HoldEntry) :
    (q.push e).Represents (m.insert e.id e.place) := by
  refine ⟨h.wellFormed.push e, fun id => ?_⟩
  rw [h.wellFormed.get?_push, HoldMap.lookup?_insert, h.get?_eq]
  rfl

theorem Represents.update (h : q.Represents m) (id : MessageId) (number : UInt64)
    (process : NodeId) (agreed : Bool) :
    (q.update id number process agreed).Represents
      (if m.contains id then m.insert id ⟨number, agreed, process⟩ else m) := by
  refine ⟨h.wellFormed.update id number process agreed, fun a => ?_⟩
  rw [h.wellFormed.get?_update, h.get?_eq, h.get?_eq, HoldMap.contains_eq]
  cases hid : m.lookup? id with
  -- Nothing is held under the id, so nothing changes.
  | none =>
    rw [Option.map_none, Option.isSome_none, if_neg Bool.false_ne_true]
    split
    · rename_i ha
      rw [ha, hid]
    · rfl
  | some old =>
    rw [Option.map_some, Option.isSome_some, if_pos rfl, HoldMap.lookup?_insert]
    rfl

theorem Represents.takenOut (h : q.Represents m) (ht : q.TakenOut e rest) :
    rest.Represents (m.erase e.id) := by
  refine ⟨ht.wellFormed, fun id => ?_⟩
  rw [ht.get?_rest, HoldMap.lookup?_erase, h.get?_eq]

/-- The entry that is taken out is the least one of the map. -/
theorem Represents.pop?_eq_some (h : q.Represents m) (hp : q.pop? = some (e, rest)) :
    m.least? = some e ∧ rest.Represents (m.erase e.id) := by
  obtain ⟨hout, hmin⟩ := h.wellFormed.pop?_eq_some hp
  refine ⟨HoldMap.least?_eq_some ?_ fun a ha hlt => ?_, h.takenOut hout⟩
  · rw [← h.get?_eq]
    exact hout.held
  · rw [← h.get?_eq] at ha
    by_cases hae : a = e
    · exact e.not_precedes_self (hae ▸ hlt)
    · exact a.not_precedes_self (hlt.trans (HoldEntry.compare_eq_lt_iff.1 (hmin _ a ha hae)))

theorem Represents.pop?_eq_none (h : q.Represents m) (hp : q.pop? = none) : m.least? = none := by
  refine HoldMap.least?_eq_none fun id => ?_
  rw [← h.get?_eq]
  exact h.wellFormed.pop?_eq_none_iff.1 hp id

theorem Represents.peek?_eq (h : q.Represents m) : q.peek? = m.least? := by
  rw [HoldQueue.peek?_eq]
  cases hp : q.pop? with
  | none => exact (h.pop?_eq_none hp).symm
  | some out => exact (h.pop?_eq_some hp).1.symm

theorem Represents.erase_of_none (h : q.Represents m) {id : MessageId}
    (hid : m.lookup? id = none) : q.Represents (m.erase id) := by
  refine ⟨h.wellFormed, fun a => ?_⟩
  rw [h.get?_eq, HoldMap.lookup?_erase]
  split
  · rename_i ha
    rw [ha, hid]
  · rfl

/-- What is taken out under an id is what the map holds there. -/
theorem Represents.remove?_cases (h : q.Represents m) (id : MessageId) :
    (∃ e rest, q.remove? id = some (e, rest) ∧ m.lookup? id = some e ∧
      rest.Represents (m.erase id)) ∨
    (q.remove? id = none ∧ m.lookup? id = none) := by
  have hindexed := h.wellFormed.indexed
  unfold remove?
  cases hs : q.slots.get? id with
  | none =>
    refine Or.inr ⟨rfl, ?_⟩
    rw [← h.get?_eq]
    exact hindexed.slots_get?_eq_none_iff.1 hs
  | some slot =>
    obtain ⟨e, he, rfl⟩ := (hindexed id slot).1 hs
    have hr := removeAt?_eq he
    have hout := h.wellFormed.takenOut_of_removeAt? hr
    refine Or.inl ⟨e, _, hr, ?_, h.takenOut hout⟩
    rw [← h.get?_eq]
    exact hout.held

/-- An operation answers what the map answers, and holds what the map holds. -/
theorem Represents.perform (h : q.Represents m) (o : Operation) :
    (q.perform o).1 = (m.perform o).1 ∧ (q.perform o).2.Represents (m.perform o).2 := by
  cases o with
  | push e => exact ⟨rfl, h.push e⟩
  | pop =>
    rw [HoldQueue.perform, HoldMap.perform]
    cases hp : q.pop? with
    | none =>
      rw [h.pop?_eq_none hp]
      exact ⟨rfl, h⟩
    | some out =>
      obtain ⟨hleast, hrest⟩ := h.pop?_eq_some hp
      rw [hleast]
      exact ⟨rfl, hrest⟩
  | remove id =>
    rw [HoldQueue.perform, HoldMap.perform]
    rcases h.remove?_cases id with ⟨e, rest, hr, hentry, hrest⟩ | ⟨hr, hentry⟩
    · rw [hr, hentry]
      exact ⟨rfl, hrest⟩
    · rw [hr, hentry]
      exact ⟨rfl, h.erase_of_none hentry⟩
  | update id number process agreed =>
    exact ⟨congrArg Answer.flag (h.contains_eq id), h.update id number process agreed⟩
  | get id => exact ⟨congrArg Answer.entry (h.get?_eq id), h⟩
  | contains id => exact ⟨congrArg Answer.flag (h.contains_eq id), h⟩
  | peek => exact ⟨congrArg Answer.entry h.peek?_eq, h⟩

/-- An operation on a queue whose index is right touches no slot beyond the heap. -/
theorem Guarded.perform_eq (h : q.Indexed) (o : Operation) :
    Guarded.perform q o = some (q.perform o) := by
  cases o with
  | push e => rw [Guarded.perform, push_eq h]; rfl
  | pop => rw [Guarded.perform, pop_eq]; rfl
  | remove id => rw [Guarded.perform, remove_eq]; rfl
  | update id number process agreed => rw [Guarded.perform, update_eq h]; rfl
  | get id => rw [Guarded.perform, get_eq h]; rfl
  | contains | peek => rfl

/-! ## Any number of operations -/

theorem Represents.run (h : q.Represents m) (os : List Operation) :
    Guarded.run q os = some (q.run os) ∧ (q.run os).1 = (m.run os).1 ∧
      (q.run os).2.Represents (m.run os).2 := by
  induction os generalizing q m with
  | nil => exact ⟨rfl, rfl, h⟩
  | cons o os ih =>
    obtain ⟨hanswer, hnext⟩ := h.perform o
    obtain ⟨hguarded, hanswers, hend⟩ := ih hnext
    refine ⟨?_, ?_, hend⟩
    · rw [Guarded.run, Guarded.perform_eq h.wellFormed.indexed, Option.bind_some, hguarded]
      rfl
    · show (q.perform o).1 :: ((q.perform o).2.run os).1
        = (m.perform o).1 :: ((m.perform o).2.run os).1
      rw [hanswer, hanswers]

/-- Taking out entries until none is left gives every entry, in order. -/
theorem WellFormed.drain (h : q.WellFormed) :
    q.drain.1.Pairwise HoldEntry.Precedes ∧ (∀ e, e ∈ q.drain.1 ↔ q.get? e.id = some e) ∧
      q.drain.2.size = 0 := by
  fun_induction HoldQueue.drain q with
  | case1 q hp =>
    have hnone := h.pop?_eq_none_iff.1 hp
    refine ⟨List.Pairwise.nil, fun e => ?_, h.size_eq_zero_iff.2 hnone⟩
    rw [hnone]
    exact ⟨nofun, nofun⟩
  | case2 q e rest hp _ es q' hdrain ih =>
    obtain ⟨hout, hmin⟩ := h.pop?_eq_some hp
    obtain ⟨hsorted, hmem, hempty⟩ := ih hout.wellFormed
    rw [hdrain] at hsorted hmem hempty
    have hmem' (a : HoldEntry) : a ∈ es ↔ a.id ≠ e.id ∧ q.get? a.id = some a := by
      rw [hmem, hout.get?_rest]
      split <;> simp_all
    refine ⟨List.pairwise_cons.2 ⟨fun a ha => ?_, hsorted⟩, fun a => ?_, hempty⟩
    · obtain ⟨hne, ha⟩ := (hmem' a).1 ha
      exact HoldEntry.compare_eq_lt_iff.1 (hmin _ a ha fun hae => hne (congrArg _ hae))
    · rw [List.mem_cons, hmem']
      constructor
      · rintro (rfl | ⟨-, ha⟩)
        · exact hout.held
        · exact ha
      · intro ha
        by_cases hid : a.id = e.id
        · rw [hid, hout.held] at ha
          exact Or.inl (Option.some.inj ha).symm
        · exact Or.inr ⟨hid, ha⟩

/-- Whatever is asked of a new queue, no slot beyond the heap is touched, and the answers are those
    of a finite map. Afterwards no entry is smaller than its parent, the index tells the slot of
    each entry and nothing else, and the queue holds what the map holds; taking out entries until
    none is left gives each of them once, in increasing order. The order is total, and is the one
    that entries are compared by. -/
theorem answers_as_finite_map (os : List Operation) :
    (Guarded.run ∅ os = some (run ∅ os) ∧ (run ∅ os).1 = (HoldMap.run ∅ os).1) ∧
    ((run ∅ os).2.Ordered ∧ (run ∅ os).2.Indexed ∧
      ∀ id, (run ∅ os).2.get? id = (HoldMap.run ∅ os).2.lookup? id) ∧
    ((run ∅ os).2.drain.1.Pairwise HoldEntry.Precedes ∧
      (∀ e, e ∈ (run ∅ os).2.drain.1 ↔ (HoldMap.run ∅ os).2.lookup? e.id = some e) ∧
      (run ∅ os).2.drain.2.size = 0) ∧
    (IsStrictTotalOrder HoldEntry HoldEntry.Precedes ∧
      ∀ a b : HoldEntry, (compare a b = .lt ↔ a.Precedes b) ∧ (compare a b = .eq ↔ a = b)) := by
  obtain ⟨hguarded, hanswers, hend⟩ := empty_represents.run os
  obtain ⟨hsorted, hmem, hempty⟩ := hend.wellFormed.drain
  refine ⟨⟨hguarded, hanswers⟩, ⟨hend.wellFormed.ordered, hend.wellFormed.indexed, hend.get?_eq⟩,
    ⟨hsorted, fun e => ?_, hempty⟩, inferInstance, fun a b => ⟨HoldEntry.compare_eq_lt_iff, ?_⟩⟩
  · rw [hmem, hend.get?_eq]
  · exact Std.LawfulEqOrd.compare_eq_iff_eq

end HoldQueue

end AgreedOrder
