/-
  AgreedOrder.Member

  One member of the group: the members it counts as live, the envelopes it has
  seen, its part in the agreement, and the votes it collects for messages of
  its own.
-/

import AgreedOrder.PeerTable
import AgreedOrder.Sequencer
import AgreedOrder.Votes

namespace AgreedOrder

/-- The collection of votes on one message, at its sender. -/
structure Collector where
  votes : Votes
  /-- Proposals that arrived and are not counted yet, the oldest first. -/
  inbox : List Proposal
  /-- The changes of the group that are taken into account. -/
  seenChanges : Nat

/-- The state of a member. -/
structure Member where
  self : NodeId
  peers : PeerTable
  stopped : Bool
  /-- The ids of the flooded envelopes seen, the latest first. -/
  received : List MessageId
  sequencer : Sequencer
  /-- The messages whose votes are being collected, the oldest first. -/
  collectors : List Collector
  /-- Messages released and not handed to the application yet, the oldest first. -/
  released : List Delivery
  /-- The changes of the group after which messages were released. -/
  seenChanges : Nat

/-- What became of something that was to be sent. -/
inductive SendOutcome
  | done
  /-- A queue is full, and the sender waits. -/
  | blocked
  | failed (e : GroupError)
  deriving DecidableEq

namespace Member

/-- A member that counts every node of its group as live and has said nothing yet. -/
def init (self : NodeId) (members : List Node) (capacity : Nat) : Member :=
  { self
    peers := members.foldl (fun t n => t.add n capacity) PeerTable.empty
    stopped := false
    received := []
    sequencer := Sequencer.init self
    collectors := []
    released := []
    seenChanges := 0 }

/-- A member with the nodes and limits of a configuration. -/
def ofConfig (c : Config) : Member := init c.self c.membership c.outboundCapacity

/-- Stop the member. What waits in a full queue from now on is given up. -/
def stop (m : Member) : Member := { m with stopped := true }

/-- Take another member out of the group. Tells whether it was in. -/
def eject (m : Member) (id : NodeId) : Bool × Member :=
  let (removed, peers) := m.peers.remove id
  (removed.isSome, { m with peers })

/-- The number of messages held. -/
def pending (m : Member) : Nat := m.sequencer.pending

/-- Release what can be released, for the application to take. -/
def release (m : Member) : Member :=
  let (deliveries, sequencer) := m.sequencer.release m.peers.isLive
  { m with sequencer, released := m.released ++ deliveries }

end Member

end AgreedOrder
