/-
  AgreedOrder.Proofs.Sequencer.Guarded

  An agreement and a release as they are when the table of messages and the
  hold queue are not trusted to know the same messages: a message without an
  entry, and an entry without a message, come to nothing. In a coherent
  sequencer neither is ever met, and both functions come to the same as
  without the checks.

    * `onAgreement_eq` — no message that is agreed lacks its entry.
    * `release_eq` — no entry that is looked at lacks its message.
-/

import AgreedOrder.Proofs.Sequencer.Release

namespace AgreedOrder.Sequencer.Guarded

variable {s : Sequencer}

/-- Take note of an agreement, if the entry of its message is found where the message is known. -/
def onAgreement (s : Sequencer) (a : Agreement) : Option (Except GroupError Unit × Sequencer) :=
  let raised := { s with maxAgreed := max s.maxAgreed a.number }
  match s.messages.get? a.id with
  | none => some (.error (.unknownMessage a.id), raised)
  | some held =>
    if s.hold.contains a.id then
      some (.ok (),
        { raised with
          messages := s.messages.insert a.id { held with agreement := a.number, agreed := true }
          hold := s.hold.update a.id a.number a.voter true })
    else none

/-- Release messages from the front of the hold queue, which is looked at first and taken out only
    if its message is settled, as long as every entry has a message. -/
def release (live : NodeId → Bool) (s : Sequencer) : Option (List Delivery × Sequencer) :=
  match s.hold.peek? with
  | none => some ([], s)
  | some front =>
    match s.messages.get? front.id with
    | none => none
    | some held =>
      if held.agreed = false ∧ live held.sender = true then some ([], s)
      else
        match h : s.hold.pop? with
        | none => none
        | some (entry, hold) =>
          have := HoldQueue.size_of_pop?_eq_some h
          (release live { s with hold, messages := s.messages.erase front.id }).map fun after =>
            if held.agreed then
              (⟨front.id, entry.number, entry.process, held.body⟩ :: after.1, after.2)
            else after
termination_by s.hold.size
decreasing_by exact Nat.lt_of_succ_le (Nat.le_of_eq this)

theorem onAgreement_eq (h : s.Coherent) (a : Agreement) :
    onAgreement s a = some (s.onAgreement a) := by
  have hentry : s.hold.contains a.id = (s.messages.get? a.id).isSome := by
    rw [h.wellFormed.indexed.contains_eq, h.isSome_eq]
  unfold onAgreement Sequencer.onAgreement
  dsimp only
  rw [hentry]
  cases s.messages.get? a.id <;> rfl

/-- The entry that is looked at is the one that is taken out after that. -/
theorem release_of_front {live : NodeId → Bool} {e : HoldEntry} {rest : HoldQueue}
    {held : HeldMessage} (hp : s.hold.pop? = some (e, rest))
    (hm : s.messages.get? e.id = some held) :
    release live s =
      if held.agreed = false ∧ live held.sender = true then some ([], s)
      else
        (release live (s.drop e.id rest)).map fun after =>
          if held.agreed then (⟨e.id, e.number, e.process, held.body⟩ :: after.1, after.2)
          else after := by
  have hpeek : s.hold.peek? = some e := by rw [HoldQueue.peek?_eq, hp]; rfl
  rw [release, hpeek]
  dsimp only
  rw [hm]
  dsimp only
  split
  · rfl
  · split
    · rename_i hnone
      rw [hp] at hnone
      cases hnone
    · rename_i hsome
      rw [hp] at hsome
      cases hsome
      rfl

theorem release_eq (h : s.Coherent) (live : NodeId → Bool) :
    release live s = some (s.release live) := by
  fun_induction Sequencer.release live s with
  -- Nothing is held.
  | case1 s hnone =>
    have hpeek : s.hold.peek? = none := by rw [HoldQueue.peek?_eq, hnone, Option.map_none]
    rw [release, hpeek]
  -- The front entry has a message: this cannot be.
  | case2 s e rest hp _ hm =>
    obtain ⟨x, hx, -, -⟩ := h.front hp
    rw [(held?_eq_some_iff.1 hx).1] at hm
    cases hm
  -- The front entry is agreed.
  | case3 s e rest hp _ held hm hagreed ds s' hrest ih =>
    have hgo := ih (h.drop hp)
    rw [hrest] at hgo
    rw [release_of_front hp hm, if_neg (by simp [hagreed]), drop, hgo, Option.map_some,
      if_pos hagreed]
  -- The front entry blocks.
  | case4 s e rest hp _ held hm hopen hlive =>
    rw [release_of_front hp hm, if_pos ⟨by simpa using hopen, hlive⟩]
  -- The sender of the front entry has left.
  | case5 s e rest hp _ held hm hopen hdead ih =>
    rw [release_of_front hp hm, if_neg fun hblocks => hdead hblocks.2, drop, ih (h.drop hp),
      Option.map_some, if_neg hopen]

end AgreedOrder.Sequencer.Guarded
