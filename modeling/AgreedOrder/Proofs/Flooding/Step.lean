/-
  AgreedOrder.Proofs.Flooding.Step

  A group whose members flood envelopes, line by line. Each member has its own
  live members, and a queue for each of them, which may be full. A multicast
  goes from queue to queue, in any order, and may have to wait in between; the
  queues are written to links, and the links hand over their lines in order. A
  step is one thing that happens to one member.

    * `Member.takeIn`, `Member.onReliable_eq` — what comes of a frame.
    * `State`, `Step`, `Reachable` — the members, the lines, what can happen.
-/

import AgreedOrder.Member.Ordering
import AgreedOrder.Proofs.PeerTable
import Mathlib.Logic.Function.Basic

namespace AgreedOrder

open Json

/-! ## Taking a frame in -/

namespace Member

/-- The envelope of a frame, the first time that it comes. -/
def takeIn (m : Member) (frame : Frame) : Option (Flood × Member) :=
  match (Record.decode? frame.body : Option Flood) with
  | none => none
  | some f =>
    if m.received.contains f.id then none
    else some (f, { m with received := f.id :: m.received })

variable {m m' : Member} {frame : Frame} {f : Flood}

theorem takeIn_of_unreadable (h : (Record.decode? frame.body : Option Flood) = none) :
    m.takeIn frame = none := by
  unfold takeIn
  rw [h]

theorem takeIn_of_decode (h : Record.decode? frame.body = some f) :
    m.takeIn frame = if f.id ∈ m.received then none
      else some (f, { m with received := f.id :: m.received }) := by
  unfold takeIn
  rw [h]
  by_cases hseen : f.id ∈ m.received
  · rw [if_pos hseen]
    exact if_pos (List.contains_iff_mem.2 hseen)
  · rw [if_neg hseen]
    exact if_neg fun hc => hseen (List.contains_iff_mem.1 hc)

/-- What is taken in was not seen before, and is now. -/
theorem takeIn_eq_some (h : m.takeIn frame = some (f, m')) :
    Record.decode? frame.body = some f ∧ f.id ∉ m.received ∧
      m' = { m with received := f.id :: m.received } := by
  cases hdecode : (Record.decode? frame.body : Option Flood) with
  | none =>
    rw [takeIn_of_unreadable hdecode] at h
    cases h
  | some f' =>
    rw [takeIn_of_decode hdecode] at h
    split at h
    · cases h
    · rename_i hnew
      cases h
      exact ⟨rfl, hnew, rfl⟩

/-- A new envelope is passed on unless the frame is the member's own, and handled after that. -/
theorem onReliable_eq (m : Member) (frame : Frame) : m.onReliable frame =
    match m.takeIn frame with
    | none => (.done, m)
    | some (f, m) =>
      if frame.sender = m.self then m.onFlood f
      else
        match m.multicast .reliable frame.body with
        | (.blocked, m) => (.blocked, m)
        | (_, m) => m.onFlood f := by
  unfold onReliable takeIn
  cases (Record.decode? frame.body : Option Flood) with
  | none => rfl
  | some f =>
    dsimp only
    -- Whether the envelope was seen before decides both sides.
    cases m.received.contains f.id with
    | true => rfl
    | false => rfl

end Member

namespace Flooding

/-! ## States -/

/-- The members of a group, and the group as each of them knows it: itself and some others. -/
structure Layout where
  ids : List NodeId
  peers : NodeId → List Node
  capacity : NodeId → Nat
  nodup : ids.Nodup
  self_mem : ∀ p ∈ ids, p ∈ (peers p).map (·.id)
  closed : ∀ p ∈ ids, ∀ n ∈ peers p, n.id ∈ ids

/-- A member knows another one. -/
def Layout.Knows (g : Layout) (p q : NodeId) : Prop := p ∈ g.ids ∧ q ∈ (g.peers p).map (·.id)

/-- A multicast under way at a member: whose queues its line is still to be put into, and the
    envelope that is routed after that. -/
structure Sending where
  node : NodeId
  line : String
  targets : List NodeId
  envelope : Option Flood

/-- A line on the link between two members. -/
structure Hop where
  source : NodeId
  target : NodeId
  line : String

/-- The members, the multicasts under way, and the lines on the links, the oldest first. The last
    three fields are a record of what happened, which no member reads. -/
structure State where
  members : NodeId → Member
  sendings : List Sending
  underWay : List Hop
  /-- The envelopes that were handed to the handlers of a member. -/
  routed : List (NodeId × Flood)
  /-- The envelopes that were multicast by their origins. -/
  issued : List (NodeId × Flood)
  /-- The envelopes that were multicast again by members they came to. -/
  passed : List (NodeId × MessageId)

namespace State

/-- A group in which nothing was sent. -/
def init (g : Layout) : State :=
  { members := fun p => Member.init p (g.peers p) (g.capacity p)
    sendings := [], underWay := [], routed := [], issued := [], passed := [] }

/-- Put a member in another state. -/
def setMember (s : State) (p : NodeId) (m : Member) : State :=
  { s with members := Function.update s.members p m }

/-- Whether a member has not crashed. -/
def Running (s : State) (p : NodeId) : Prop := (s.members p).stopped = false

/-- A member starts to multicast a body on the reliable path, to some members one after the
    other. -/
def startSending (s : State) (p : NodeId) (body : Bytes) (envelope : Option Flood)
    (targets : List NodeId) : State :=
  let m := s.members p
  let line := m.frameLine .reliable body
  { s.setMember p { m with peers := m.peers.countForAll line } with
    sendings := s.sendings ++ [⟨p, line, targets, envelope⟩] }

/-- A member multicasts an envelope of its own. -/
def multicast (s : State) (p : NodeId) (f : Flood) (targets : List NodeId) : State :=
  { s.startSending p (Record.encode f) none targets with issued := s.issued ++ [(p, f)] }

/-- A member multicasts an envelope that came to it. -/
def passOn (s : State) (p : NodeId) (f : Flood) (body : Bytes) (targets : List NodeId) : State :=
  { s.startSending p body (some f) targets with passed := s.passed ++ [(p, f.id)] }

/-- An envelope is handed to the handlers of a member. -/
def route (s : State) (p : NodeId) (f : Flood) : State := { s with routed := s.routed ++ [(p, f)] }

/-- A member receives a frame on the reliable path. Where it passes an envelope on, it does so to
    the targets. -/
def receive (s : State) (q : NodeId) (frame : Frame) (targets : List NodeId) : State :=
  match (s.members q).takeIn frame with
  | none => s
  | some (f, m) =>
    if frame.sender = m.self then (s.setMember q m).route q f
    else (s.setMember q m).passOn q f frame.body targets

/-- A line arrives at a member. -/
def arrive (s : State) (q : NodeId) (line : String) (targets : List NodeId) : State :=
  match (Record.decode? (Bytes.ofText line) : Option Frame) with
  | none => s
  | some frame =>
    if ControlPath.ofText? frame.path = some .reliable then s.receive q frame targets else s

/-- A multicast puts its line into the next queue. -/
def enqueue (s : State) (x : Sending) (q : NodeId) (sendings : List Sending) : State :=
  { s.setMember x.node
      { s.members x.node with peers := ((s.members x.node).peers.enqueue q x.line).2 } with
    sendings }

/-- A multicast is over, and what it was to be followed by happens. -/
def finish (s : State) (x : Sending) (sendings : List Sending) : State :=
  { s with sendings, routed := s.routed ++ x.envelope.toList.map (x.node, ·) }

/-- A line goes from a queue to a link. -/
def write (s : State) (p q : NodeId) (line : String) (peers : PeerTable) : State :=
  { s.setMember p { s.members p with peers } with underWay := s.underWay ++ [⟨p, q, line⟩] }

/-- Change who is in a member's group, or who reads its queues. -/
def setPeers (s : State) (p : NodeId) (peers : PeerTable) : State :=
  s.setMember p { s.members p with peers }

end State

/-! ## Steps -/

/-- What can happen in a group. Only a running member acts, and it gives another one up only when
    that one has crashed. A multicast goes to the live members in whatever order the member's table
    of queues has just then; the order need not be the same at two members, nor at one member
    twice. -/
inductive Step (g : Layout) : State → State → Prop
  | multicast {s : State} {p : NodeId} {id : MessageId} {path : ControlPath} {body : Bytes}
      {targets : List NodeId} (member : p ∈ g.ids) (running : s.Running p)
      (fresh : ∀ x ∈ s.issued, x.2.id ≠ id)
      (order : targets.Perm (s.members p).peers.liveIds) :
      Step g s (s.multicast p ⟨id, path.text, body⟩ targets)
  /-- A multicast goes on to the next queue, unless that is full. -/
  | enqueue {s : State} {x : Sending} {q : NodeId} {rest : List NodeId}
      {before after : List Sending}
      (running : s.Running x.node) (sending : s.sendings = before ++ x :: after)
      (next : x.targets = q :: rest)
      (room : ((s.members x.node).peers.enqueue q x.line).1 ≠ .full) :
      Step g s (s.enqueue x q (before ++ { x with targets := rest } :: after))
  | finish {s : State} {x : Sending} {before after : List Sending}
      (running : s.Running x.node) (sending : s.sendings = before ++ x :: after)
      (complete : x.targets = []) : Step g s (s.finish x (before ++ after))
  /-- A multicast is given up where it stands once its member has stopped. -/
  | giveUp {s : State} {x : Sending} {before after : List Sending}
      (stopped : ¬s.Running x.node) (sending : s.sendings = before ++ x :: after) :
      Step g s (s.finish x (before ++ after))
  | write {s : State} {p q : NodeId} {line : String} {peers : PeerTable}
      (running : s.Running p)
      (oldest : (s.members p).peers.takeLine q = (some (.line line), peers)) :
      Step g s (s.write p q line peers)
  /-- The oldest line of a link arrives. -/
  | arrive {s : State} {h : Hop} {before after : List Hop} {targets : List NodeId}
      (running : s.Running h.target) (underWay : s.underWay = before ++ h :: after)
      (oldest : ∀ k ∈ before, k.source ≠ h.source ∨ k.target ≠ h.target)
      (order : targets.Perm (s.members h.target).peers.liveIds) :
      Step g s (State.arrive { s with underWay := before ++ after } h.target h.line targets)
  /-- A line is lost only when one of its ends has crashed. -/
  | lose {s : State} {h : Hop} {before after : List Hop}
      (underWay : s.underWay = before ++ h :: after)
      (crashed : ¬s.Running h.source ∨ ¬s.Running h.target) :
      Step g s { s with underWay := before ++ after }
  | crash {s : State} {p : NodeId} (member : p ∈ g.ids) (running : s.Running p) :
      Step g s (s.setMember p (s.members p).stop)
  /-- A member stops reading the queue of one that has crashed. -/
  | dropReader {s : State} {p q : NodeId} (member : p ∈ g.ids) (running : s.Running p)
      (crashed : ¬s.Running q)
      (reading : (s.members p).peers.hasReader q = true) :
      Step g s (s.setPeers p ((s.members p).peers.dropReader q))
  | eject {s : State} {p q : NodeId} (member : p ∈ g.ids) (running : s.Running p)
      (crashed : ¬s.Running q)
      (live : (s.members p).peers.isLive q = true) :
      Step g s (s.setMember p ((s.members p).eject q).2)

/-- What a group can come to. -/
inductive Reachable (g : Layout) : State → Prop
  | init : Reachable g (State.init g)
  | step {s s' : State} (reachable : Reachable g s) (next : Step g s s') : Reachable g s'

instance (s : State) (p : NodeId) : Decidable (s.Running p) :=
  inferInstanceAs (Decidable ((s.members p).stopped = false))

end Flooding

end AgreedOrder
