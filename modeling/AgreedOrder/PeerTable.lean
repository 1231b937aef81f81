/-
  AgreedOrder.PeerTable

  The members that count as live, each with its queue and its counters. This
  table alone says who is in the group: whom a multicast goes to, whose votes
  are needed, and whose messages are still to be expected.
-/

import AgreedOrder.Config
import AgreedOrder.GroupError
import AgreedOrder.Outbox
import AgreedOrder.SortedMap

namespace AgreedOrder

/-- A live member. The counters tell how many lines and bytes were addressed to it. -/
structure Peer where
  node : Node
  connected : Bool
  messagesSent : UInt64
  bytesSent : UInt64
  deriving DecidableEq

/-- How many members are live, and how many of these have a link. -/
structure Membership where
  live : Nat
  connected : Nat
  deriving DecidableEq

/-- Whether every live member has a link. -/
def Membership.isMeshed (m : Membership) : Bool := m.connected == m.live

/-- The live members by id; for each id that ever was one, its latest queue; and how many changes
    were published. -/
structure PeerTable where
  peers : SortedMap NodeId Peer
  outboxes : SortedMap NodeId Outbox
  changes : Nat

namespace PeerTable

/-- The table with no member. -/
def empty : PeerTable := ⟨∅, ∅, 0⟩

instance : Inhabited PeerTable := ⟨empty⟩

/-! ## Members -/

/-- Add a member with a queue of its own. -/
def add (t : PeerTable) (node : Node) (capacity : Nat) : PeerTable :=
  ⟨t.peers.insert node.id ⟨node, false, 0, 0⟩, t.outboxes.insert node.id (Outbox.init capacity),
    t.changes + 1⟩

/-- The queue that adding a member under an id replaces, if there ever was one. It has ended. -/
def replacedBy (t : PeerTable) (id : NodeId) : Option Outbox :=
  (t.outboxes.get? id).map fun b => { b with hasWriter := false }

/-- Take a member out of the group. Its queue gets no more lines. -/
def remove (t : PeerTable) (id : NodeId) : Option Peer × PeerTable :=
  match t.peers.get? id with
  | none => (none, t)
  | some peer =>
    (some peer,
      ⟨t.peers.erase id, t.outboxes.modify id fun b => { b with hasWriter := false },
        t.changes + 1⟩)

/-- Note that a member's link stands. -/
def markConnected (t : PeerTable) (id : NodeId) : Except GroupError PeerTable :=
  match t.peers.get? id with
  | none => .error (.unknownPeer id)
  | some peer =>
    .ok { t with peers := t.peers.insert id { peer with connected := true },
                 changes := t.changes + 1 }

/-- Take away the reading end of a queue. -/
def dropReader (t : PeerTable) (id : NodeId) : PeerTable :=
  { t with outboxes := t.outboxes.modify id fun b => { b with hasReader := false } }

/-! ## Queries -/

/-- The number of live members. -/
def liveCount (t : PeerTable) : Nat := t.peers.size

/-- Whether a member is live. -/
def isLive (t : PeerTable) (id : NodeId) : Bool := t.peers.contains id

/-- The ids of the live members, in order. -/
def liveIds (t : PeerTable) : List NodeId := t.peers.keys

/-- The size of the group. -/
def membership (t : PeerTable) : Membership :=
  ⟨t.liveCount, (t.peers.values.filter (·.connected)).length⟩

/-! ## Counters and queues -/

/-- Add to a counter, which stops at the end of its range. -/
def addSaturating (n : UInt64) (k : Nat) : UInt64 :=
  if UInt64.size ≤ n.toNat + k then 18446744073709551615 else UInt64.ofNat (n.toNat + k)

/-- Count a line as addressed to a member. -/
def countLine (line : String) (p : Peer) : Peer :=
  { p with messagesSent := addSaturating p.messagesSent 1,
           bytesSent := addSaturating p.bytesSent line.utf8ByteSize }

/-- Count a line for one live member. -/
def countFor (t : PeerTable) (id : NodeId) (line : String) : Except GroupError PeerTable :=
  match t.peers.get? id with
  | none => .error (.unknownPeer id)
  | some peer => .ok { t with peers := t.peers.insert id (countLine line peer) }

/-- Count a line for every live member. -/
def countForAll (t : PeerTable) (line : String) : PeerTable :=
  { t with peers := t.peers.map fun _ p => countLine line p }

/-- Put a line into a member's queue, whether there is room or not. -/
def pushLine (t : PeerTable) (id : NodeId) (line : String) : PeerTable :=
  { t with outboxes := t.outboxes.modify id (·.push line) }

/-- Put a line into a member's queue if there is room. Tells whether there was. -/
def tryPushLine (t : PeerTable) (id : NodeId) (line : String) : Bool × PeerTable :=
  match t.outboxes.get? id with
  | none => (false, t)
  | some b => if b.isFull then (false, t) else (true, t.pushLine id line)

/-- Offer a line to one live member, counting it. Tells whether there was room. -/
def offer (t : PeerTable) (id : NodeId) (line : String) : Except GroupError (Bool × PeerTable) :=
  (t.countFor id line).map fun t => t.tryPushLine id line

/-- Offer a line to every live member, counting it. Tells for each whether there was room. -/
def offerAll (t : PeerTable) (line : String) : List (NodeId × Bool) × PeerTable :=
  t.liveIds.foldl
    (fun (done, t) id =>
      let (room, t) := t.tryPushLine id line
      (done ++ [(id, room)], t))
    ([], t.countForAll line)

/-- What became of a line that was to be put into a queue. -/
inductive Enqueued
  | queued
  | full
  | closed
  deriving DecidableEq, Repr

/-- Put a line into a member's queue, unless nobody reads it or it is full. -/
def enqueue (t : PeerTable) (id : NodeId) (line : String) : Enqueued × PeerTable :=
  match t.outboxes.get? id with
  | none => (.closed, t)
  | some b =>
    if b.hasReader then
      if b.isFull then (.full, t) else (.queued, t.pushLine id line)
    else (.closed, t)

/-- Take the oldest line from the queue made last for an id, if there ever was one. -/
def takeLine (t : PeerTable) (id : NodeId) : Option Outbox.Taken × PeerTable :=
  match t.outboxes.get? id with
  | none => (none, t)
  | some b =>
    let (taken, b) := b.take
    (some taken, { t with outboxes := t.outboxes.insert id b })

/-- Take every line from the queue made last for an id. -/
def takeLines (t : PeerTable) (id : NodeId) : List String × PeerTable :=
  match t.outboxes.get? id with
  | none => ([], t)
  | some b => (b.lines, { t with outboxes := t.outboxes.insert id { b with lines := [] } })

end PeerTable

end AgreedOrder
