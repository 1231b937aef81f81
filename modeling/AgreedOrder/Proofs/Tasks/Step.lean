/-
  AgreedOrder.Proofs.Tasks.Step

  A started member as the tasks that run in it: readers that take lines in, a
  dispatcher that handles one frame at a time, multicasts and collections of
  votes of its own, connectors that write to links and give members up, and a
  task that watches the group. A step is what one of them does at a time, while
  it holds a lock or until it waits, so that the others can come in between.

    * `State` — the member, and how far each task is.
    * `Step`, `Reachable` — what can happen.
-/

import AgreedOrder.Member.Background
import AgreedOrder.Proofs.Flooding.Step
import AgreedOrder.Proofs.Protocol.Step

namespace AgreedOrder.Tasks

open Json

/-! ## Tasks -/

/-- How far the dispatcher is with the frame that it handles. -/
inductive Handling
  | idle
  /-- A new envelope of another member is to be passed on. -/
  | arrived (f : Flood) (body : Bytes)
  /-- It is passed on: its line is still to be put into the queues of these members. -/
  | passingOn (f : Flood) (line : String) (targets : List NodeId)
  /-- An envelope is to be handed to the handler for its path. -/
  | routing (f : Flood)
  /-- An ask was given a number. A release is to follow. -/
  | numbered (sender : NodeId) (v : Proposal)
  /-- A proposal is to be sent. -/
  | replying (sender : NodeId) (v : Proposal)
  /-- Its line is still to be put into the queue of the sender of the ask. -/
  | sending (target : NodeId) (line : String)
  /-- An agreement was noted. A release is to follow. -/
  | noted

/-- The handler has changed what is held, and has not released yet. -/
def Handling.IsReleaseDue : Handling → Prop
  | .numbered .. => True
  | .noted => True
  | _ => False

/-- How far a multicast of the member's own is. -/
inductive Sending
  | due (f : Flood)
  /-- The line is still to be put into the queues of these members. -/
  | underWay (line : String) (targets : List NodeId)

/-- What the task that watches the group does. -/
inductive Watching
  /-- It looks at the group for the first time only later. -/
  | unsubscribed
  | waiting
  /-- It has seen a change. A release is to follow. -/
  | noticed
  deriving DecidableEq

/-- A member and its tasks. -/
structure State where
  member : Member
  /-- The frames that arrived and were not taken by the dispatcher yet, the oldest first. -/
  inbound : List Frame
  handling : Handling
  sendings : List Sending
  watching : Watching

namespace State

/-- A member of a group when its tasks are started. -/
def init (self : NodeId) (nodes : List Node) (capacity : Nat) : State :=
  { member := Member.init self nodes capacity
    inbound := [], handling := .idle, sendings := [], watching := .unsubscribed }

/-- A reader takes a line in. One that holds no frame is dropped. -/
def arrive (s : State) (line : Bytes) : State :=
  { s with inbound := s.inbound ++ (Record.decode? line : Option Frame).toList }

/-- Change the queues and counters, or who is in the group. -/
def setPeers (s : State) (peers : PeerTable) : State :=
  { s with member := { s.member with peers } }

/-- A release, after which the dispatcher goes on. -/
def release (s : State) (handling : Handling) : State :=
  { s with member := s.member.release, handling }

/-- The collection of votes of one message goes on, or is over and announces its agreement. -/
def conclude (s : State) (before after : List Collector) (floodId : MessageId) :
    Bool × Collector → State
  | (false, c) => { s with member := { s.member with collectors := before ++ c :: after } }
  | (true, c) =>
    { s with
      member := { s.member with collectors := before ++ after }
      sendings := s.sendings ++ c.votes.agreement.toList.map fun a =>
        .due ⟨floodId, ControlPath.agreement.text, Record.encode a⟩ }

end State

/-! ## The dispatcher -/

/-- Begin with a frame: an envelope is taken in, a proposal handed on, and anything else dropped. -/
def begin (m : Member) (frame : Frame) : Handling × Member :=
  match ControlPath.ofText? frame.path with
  | some .reliable =>
    match m.takeIn frame with
    | none => (.idle, m)
    | some (f, m) => (if frame.sender = m.self then .routing f else .arrived f frame.body, m)
  | some .proposal => (.idle, m.onProposal frame.body)
  | _ => (.idle, m)

/-- Hand an envelope to the handler for its path, which changes what is held. -/
def route (m : Member) (f : Flood) : Handling × Member :=
  match ControlPath.ofText? f.path with
  | some .ask =>
    match (Record.decode? f.body : Option Ask) with
    | none => (.idle, m)
    | some ask =>
      (.numbered ask.sender (m.sequencer.onAsk ask).1,
        { m with sequencer := (m.sequencer.onAsk ask).2 })
  | some .agreement =>
    match (Record.decode? f.body : Option Agreement) with
    | none => (.idle, m)
    | some a => (.noted, { m with sequencer := (m.sequencer.onAgreement a).2 })
  | _ => (.idle, m)

/-- Begin to send a proposal. Its line is counted, unless the addressee has left. -/
def reply (m : Member) (sender : NodeId) (v : Proposal) : Handling × Member :=
  let line := m.frameLine .proposal (Record.encode v)
  match m.peers.countFor sender line with
  | .error _ => (.idle, m)
  | .ok peers => (.sending sender line, { m with peers })

/-! ## Steps -/

/-- What can happen to a running member. A multicast goes to the live members in whatever order the
    table of queues has just then. -/
inductive Step : State → State → Prop
  /-- Lines arrive once the group is watched. -/
  | arrive {s : State} {line : Bytes} (watched : s.watching ≠ .unsubscribed) :
      Step s (s.arrive line)
  -- The dispatcher
  | take {s : State} {frame : Frame} {rest : List Frame} (idle : s.handling = .idle)
      (next : s.inbound = frame :: rest) :
      Step s { s with
        member := (begin s.member frame).2, inbound := rest
        handling := (begin s.member frame).1 }
  | passOn {s : State} {f : Flood} {body : Bytes} {targets : List NodeId}
      (handling : s.handling = .arrived f body) (order : targets.Perm s.member.peers.liveIds) :
      Step s { s.setPeers (s.member.peers.countForAll (s.member.frameLine .reliable body)) with
        handling := .passingOn f (s.member.frameLine .reliable body) targets }
  /-- A line goes into the next queue, unless that is full. -/
  | passTo {s : State} {f : Flood} {line : String} {q : NodeId} {rest : List NodeId}
      (handling : s.handling = .passingOn f line (q :: rest))
      (room : (s.member.peers.enqueue q line).1 ≠ .full) :
      Step s { s.setPeers (s.member.peers.enqueue q line).2 with
        handling := .passingOn f line rest }
  | passed {s : State} {f : Flood} {line : String} (handling : s.handling = .passingOn f line []) :
      Step s { s with handling := .routing f }
  | route {s : State} {f : Flood} (handling : s.handling = .routing f) :
      Step s { s with member := (route s.member f).2, handling := (route s.member f).1 }
  | releaseNumbered {s : State} {sender : NodeId} {v : Proposal}
      (handling : s.handling = .numbered sender v) : Step s (s.release (.replying sender v))
  | reply {s : State} {sender : NodeId} {v : Proposal}
      (handling : s.handling = .replying sender v) :
      Step s { s with
        member := (reply s.member sender v).2, handling := (reply s.member sender v).1 }
  | send {s : State} {target : NodeId} {line : String}
      (handling : s.handling = .sending target line)
      (room : (s.member.peers.enqueue target line).1 ≠ .full) :
      Step s { s.setPeers (s.member.peers.enqueue target line).2 with handling := .idle }
  | releaseNoted {s : State} (handling : s.handling = .noted) : Step s (s.release .idle)
  -- Multicasts of its own
  | submit {s : State} {id floodId : MessageId} {message : Message} :
      Step s { s with
        member := s.member.openCollector id
        sendings := s.sendings ++ [.due (s.member.askEnvelope id floodId message)] }
  | start {s : State} {f : Flood} {before after : List Sending} {targets : List NodeId}
      (sending : s.sendings = before ++ .due f :: after)
      (order : targets.Perm s.member.peers.liveIds) :
      Step s { s.setPeers
          (s.member.peers.countForAll (s.member.frameLine .reliable (Record.encode f))) with
        sendings := before ++ .underWay (s.member.frameLine .reliable (Record.encode f))
          targets :: after }
  | enqueue {s : State} {line : String} {q : NodeId} {rest : List NodeId}
      {before after : List Sending}
      (sending : s.sendings = before ++ .underWay line (q :: rest) :: after)
      (room : (s.member.peers.enqueue q line).1 ≠ .full) :
      Step s { s.setPeers (s.member.peers.enqueue q line).2 with
        sendings := before ++ .underWay line rest :: after }
  | finish {s : State} {line : String} {before after : List Sending}
      (sending : s.sendings = before ++ .underWay line [] :: after) :
      Step s { s with sendings := before ++ after }
  -- Collections of votes
  | count {s : State} {c : Collector} {before after : List Collector} {v : Proposal}
      {rest : List Proposal} {floodId : MessageId}
      (collecting : s.member.collectors = before ++ c :: after) (next : c.inbox = v :: rest) :
      Step s (s.conclude before after floodId
        (Collector.count s.member.peers.liveIds [v] { c with inbox := rest }))
  /-- A collection takes into account that the group has changed. -/
  | recount {s : State} {c : Collector} {before after : List Collector} {floodId : MessageId}
      (collecting : s.member.collectors = before ++ c :: after)
      (changed : c.seenChanges ≠ s.member.peers.changes) :
      Step s (s.conclude before after floodId
        (c.isComplete s.member.peers.liveIds, { c with seenChanges := s.member.peers.changes }))
  -- Connectors
  | connect {s : State} {q : NodeId} {peers : PeerTable}
      (live : s.member.peers.markConnected q = .ok peers) : Step s (s.setPeers peers)
  | write {s : State} {q : NodeId} : Step s (s.setPeers (s.member.peers.takeLine q).2)
  | dropReader {s : State} {q : NodeId} : Step s (s.setPeers (s.member.peers.dropReader q))
  | eject {s : State} {q : NodeId} : Step s { s with member := (s.member.eject q).2 }
  -- The task that watches the group
  /-- Changes from now on are seen. -/
  | subscribe {s : State} (watching : s.watching = .unsubscribed) :
      Step s { s with
        member := { s.member with seenChanges := s.member.peers.changes }, watching := .waiting }
  | notice {s : State} (watching : s.watching = .waiting)
      (changed : s.member.seenChanges ≠ s.member.peers.changes) :
      Step s { s with
        member := { s.member with seenChanges := s.member.peers.changes }, watching := .noticed }
  | releaseNoticed {s : State} (watching : s.watching = .noticed) :
      Step s { s with member := s.member.release, watching := .waiting }

/-- What a member can come to. -/
inductive Reachable (self : NodeId) (nodes : List Node) (capacity : Nat) : State → Prop
  | init : Reachable self nodes capacity (State.init self nodes capacity)
  | step {s s' : State} (reachable : Reachable self nodes capacity s) (next : Step s s') :
      Reachable self nodes capacity s'

end AgreedOrder.Tasks
