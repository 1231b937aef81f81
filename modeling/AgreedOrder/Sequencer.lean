/-
  AgreedOrder.Sequencer

  A member's part in agreeing on an order. It answers each ask with a number
  above all it has proposed or seen agreed, re-keys a message once its number
  is agreed, and releases messages from the front of its hold queue while the
  front one is settled: agreed, or without a sender that could still announce
  an agreement.
-/

import AgreedOrder.GroupError
import AgreedOrder.HoldQueue

namespace AgreedOrder

/-- A message that a number was proposed for. -/
structure HeldMessage where
  /-- The encoded message. -/
  body : Bytes
  proposed : UInt64
  sender : NodeId
  agreement : UInt64
  agreed : Bool
  deriving DecidableEq

/-- A message released in its final place. -/
structure Delivery where
  id : MessageId
  number : UInt64
  process : NodeId
  body : Bytes
  deriving DecidableEq

/-- The state of a member's part in the agreement. -/
structure Sequencer where
  self : NodeId
  /-- The largest number seen agreed, for any message. -/
  maxAgreed : UInt64
  /-- The largest number proposed here. -/
  maxProposed : UInt64
  messages : SortedMap MessageId HeldMessage
  hold : HoldQueue

namespace Sequencer

/-- The state of a member that has seen nothing. -/
def init (self : NodeId) : Sequencer := ⟨self, 0, 0, ∅, ∅⟩

/-- The number of messages held. -/
def pending (s : Sequencer) : Nat := s.hold.size

/-- The next number, or the largest one again at the end of the range. -/
def succSaturating (n : UInt64) : UInt64 := if n = 18446744073709551615 then n else n + 1

/-- The number proposed for the next message. -/
def nextNumber (s : Sequencer) : UInt64 := succSaturating (max s.maxAgreed s.maxProposed)

/-- Answer an ask. A message that is held already keeps its proposal. -/
def onAsk (s : Sequencer) (ask : Ask) : Proposal × Sequencer :=
  match s.messages.get? ask.id with
  | some held => (⟨s.self, ask.id, held.proposed⟩, s)
  | none =>
    let number := s.nextNumber
    (⟨s.self, ask.id, number⟩,
      { s with
        maxProposed := number
        messages := s.messages.insert ask.id ⟨ask.body, number, ask.sender, 0, false⟩
        hold := s.hold.push ⟨number, false, ask.sender, ask.id⟩ })

/-- Take note of an agreement. The largest number agreed grows even if the message is not held. -/
def onAgreement (s : Sequencer) (a : Agreement) : Except GroupError Unit × Sequencer :=
  let s := { s with maxAgreed := max s.maxAgreed a.number }
  match s.messages.get? a.id with
  | none => (.error (.unknownMessage a.id), s)
  | some held =>
    let found := s.hold.contains a.id
    (if found then .ok () else .error (.unknownMessage a.id),
      { s with
        messages := s.messages.insert a.id { held with agreement := a.number, agreed := true }
        hold := s.hold.update a.id a.number a.voter true })

/-- Release messages from the front of the hold queue. One that is agreed is delivered, whatever
    became of its sender. One that is not agreed is dropped if its sender has left, and ends the
    release if its sender is live. -/
def release (live : NodeId → Bool) (s : Sequencer) : List Delivery × Sequencer :=
  match h : s.hold.pop? with
  | none => ([], s)
  | some (entry, hold) =>
    have := HoldQueue.size_of_pop?_eq_some h
    match s.messages.get? entry.id with
    -- An entry without a message goes.
    | none => release live { s with hold := hold }
    | some held =>
      if held.agreed then
        let (rest, s) :=
          release live { s with hold := hold, messages := s.messages.erase entry.id }
        (⟨entry.id, entry.number, entry.process, held.body⟩ :: rest, s)
      -- The sender may still announce a number, so the front stays as it was.
      else if live held.sender then ([], s)
      else release live { s with hold := hold, messages := s.messages.erase entry.id }
termination_by s.hold.size
decreasing_by all_goals exact Nat.lt_of_succ_le (Nat.le_of_eq this)

end Sequencer

end AgreedOrder
