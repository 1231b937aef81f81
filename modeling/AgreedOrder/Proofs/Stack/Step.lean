/-
  AgreedOrder.Proofs.Stack.Step

  The whole stack of a group in which nobody crashes, down to the lines on the
  links. Members submit messages; asks and agreements are flooded, proposals
  go back to the sender of a message, and all of them stand in the same queues
  and on the same links; what arrives is read and handled; and each member
  hands what it releases to its application, one delivery at a time. A step is
  one thing that happens to one member.

    * `Roster.layout` — every member knows the whole group.
    * `State` — the members, the lines on their way, and what was handed over.
    * `Move`, `Step`, `Reachable` — what can happen.
-/

import AgreedOrder.Proofs.Flooding.Step
import AgreedOrder.Proofs.Protocol.Step

namespace AgreedOrder

/-- The members of a group that all know each other. -/
def Protocol.Roster.layout (g : Protocol.Roster) : Flooding.Layout where
  ids := g.ids
  peers _ := g.nodes
  capacity _ := g.capacity
  nodup := g.nodup
  self_mem _ h := h
  closed _ _ _ h := List.mem_map_of_mem h

namespace Stack

open Json
open Protocol (Roster)
open Flooding (Sending Hop)

/-! ## States -/

/-- The members of a group and the lines on their way between them, and for each member what it has
    handed to its application. The messages that were submitted are recorded with their ids. -/
structure State where
  net : Flooding.State
  handed : NodeId → List Delivery
  sent : List (MessageId × Message)

/-- A member starts to send a body to another one. Nothing is sent to one that it does not count as
    live. -/
def startUnicast (n : Flooding.State) (p q : NodeId) (path : ControlPath) (body : Bytes) :
    Flooding.State :=
  let m := n.members p
  let line := m.frameLine path body
  match m.peers.countFor q line with
  | .error _ => n
  | .ok peers =>
    { n.setMember p { m with peers } with sendings := n.sendings ++ [⟨p, line, [q], none⟩] }

namespace State

/-- A group that has said nothing. -/
def init (g : Roster) : State :=
  { net := Flooding.State.init g.layout
    handed := fun _ => []
    sent := [] }

/-- Other members and other lines on their way. -/
def setNet (s : State) (n : Flooding.State) : State := { s with net := n }

/-- Put a member in another state. -/
def setMember (s : State) (p : NodeId) (m : Member) : State := s.setNet (s.net.setMember p m)

/-- A member sends a message: it opens a collection of votes, and floods an ask. -/
def submit (s : State) (p : NodeId) (id floodId : MessageId) (message : Message)
    (targets : List NodeId) : State :=
  { s with
    net := (s.net.setMember p ((s.net.members p).openCollector id)).multicast p
      ⟨floodId, ControlPath.ask.text, Record.encode (Ask.mk p id (Record.encode message))⟩ targets
    sent := s.sent ++ [(id, message)] }

/-- A member answers an ask, and starts to send its proposal to the sender of the message. -/
def answer (s : State) (p : NodeId) (ask : Ask) : State :=
  s.setNet (startUnicast (s.net.setMember p ((s.net.members p).answer ask).2) p ask.sender .proposal
    (Record.encode ((s.net.members p).answer ask).1))

/-- A member handles an envelope. -/
def handle (s : State) (p : NodeId) (f : Flood) : State :=
  match ControlPath.ofText? f.path with
  | some .ask =>
    match (Record.decode? f.body : Option Ask) with
    | none => s
    | some ask => s.answer p ask
  | some .agreement => s.setMember p ((s.net.members p).onAgreement f.body)
  | _ => s

/-- A multicast or a unicast is over. An envelope that was passed on is handled after that. -/
def finish (s : State) (x : Sending) (sendings : List Sending) : State :=
  let s := s.setNet (s.net.finish x sendings)
  match x.envelope with
  | none => s
  | some f => s.handle x.node f

/-- A member receives a frame on the reliable path: a new envelope of its own is handled, one of
    another member is passed on first. -/
def receive (s : State) (q : NodeId) (frame : Frame) (targets : List NodeId) : State :=
  match (s.net.members q).takeIn frame with
  | none => s
  | some (f, m) =>
    if frame.sender = m.self then (s.setNet ((s.net.setMember q m).route q f)).handle q f
    else s.setNet ((s.net.setMember q m).passOn q f frame.body targets)

/-- A line arrives at a member. -/
def arrive (s : State) (q : NodeId) (line : String) (targets : List NodeId) : State :=
  match (Record.decode? (Bytes.ofText line) : Option Frame) with
  | none => s
  | some frame =>
    match ControlPath.ofText? frame.path with
    | some .reliable => s.receive q frame targets
    | some .proposal => s.setMember q ((s.net.members q).onProposal frame.body)
    | _ => s

/-- A collection of votes is over, and its agreement is flooded. -/
def announce (s : State) (p : NodeId) (cs : List Collector) (floodId : MessageId)
    (a : Agreement) (targets : List NodeId) : State :=
  s.setNet ((s.net.setMember p { s.net.members p with collectors := cs }).multicast p
    ⟨floodId, ControlPath.agreement.text, Record.encode a⟩ targets)

/-- A member hands a delivery to its application. -/
def handOver (s : State) (p : NodeId) (d : Delivery) (rest : List Delivery) : State :=
  { s.setMember p { s.net.members p with released := rest } with
    handed := Function.update s.handed p (s.handed p ++ [d]) }

end State

/-! ## Steps -/

/-- What can happen without anyone outside the group. A multicast goes to the live members in
    whatever order the member's table of queues has just then. -/
inductive Move (g : Roster) : State → State → Prop
  /-- A multicast goes on to the next queue, unless that is full. -/
  | enqueue {s : State} {x : Sending} {q : NodeId} {rest : List NodeId}
      {before after : List Sending}
      (sending : s.net.sendings = before ++ x :: after) (next : x.targets = q :: rest)
      (room : ((s.net.members x.node).peers.enqueue q x.line).1 ≠ .full) :
      Move g s (s.setNet (s.net.enqueue x q (before ++ { x with targets := rest } :: after)))
  | finish {s : State} {x : Sending} {before after : List Sending}
      (sending : s.net.sendings = before ++ x :: after) (complete : x.targets = []) :
      Move g s (s.finish x (before ++ after))
  | write {s : State} {p q : NodeId} {line : String} {peers : PeerTable}
      (oldest : (s.net.members p).peers.takeLine q = (some (.line line), peers)) :
      Move g s (s.setNet (s.net.write p q line peers))
  /-- The oldest line of a link arrives. -/
  | arrive {s : State} {h : Hop} {before after : List Hop} {targets : List NodeId}
      (underWay : s.net.underWay = before ++ h :: after)
      (oldest : ∀ k ∈ before, k.source ≠ h.source ∨ k.target ≠ h.target)
      (order : targets.Perm (s.net.members h.target).peers.liveIds) :
      Move g s
        ((s.setNet { s.net with underWay := before ++ after }).arrive h.target h.line targets)
  /-- A collection of votes takes into account what came in, and goes on. -/
  | goOn {s : State} {p : NodeId} {c c' : Collector} {before after : List Collector}
      (collecting : (s.net.members p).collectors = before ++ c :: after)
      (advanced : c.advance (s.net.members p).peers.liveIds (s.net.members p).peers.changes
        = (false, c')) :
      Move g s (s.setMember p { s.net.members p with collectors := before ++ c' :: after })
  | announce {s : State} {p : NodeId} {c c' : Collector} {before after : List Collector}
      {floodId : MessageId} {a : Agreement} {targets : List NodeId}
      (member : p ∈ g.ids) (collecting : (s.net.members p).collectors = before ++ c :: after)
      (advanced : c.advance (s.net.members p).peers.liveIds (s.net.members p).peers.changes
        = (true, c'))
      (agreement : c'.votes.agreement = some a) (fresh : ∀ x ∈ s.net.issued, x.2.id ≠ floodId)
      (order : targets.Perm (s.net.members p).peers.liveIds) :
      Move g s (s.announce p (before ++ after) floodId a targets)
  | watch {s : State} {p : NodeId} : Move g s (s.setMember p (s.net.members p).watchGroup)

/-- What can happen in a group: a member sends a message, something moves on, or a member hands the
    oldest delivery that it has released to its application. -/
inductive Step (g : Roster) : State → State → Prop
  | submit {s : State} {p : NodeId} {id floodId : MessageId} {message : Message}
      {targets : List NodeId} (member : p ∈ g.ids) (fresh : ∀ x ∈ s.sent, x.1 ≠ id)
      (freshFlood : ∀ x ∈ s.net.issued, x.2.id ≠ floodId)
      (order : targets.Perm (s.net.members p).peers.liveIds) :
      Step g s (s.submit p id floodId message targets)
  | move {s s' : State} (next : Move g s s') : Step g s s'
  | handOver {s : State} {p : NodeId} {d : Delivery} {rest : List Delivery}
      (oldest : (s.net.members p).released = d :: rest) : Step g s (s.handOver p d rest)

/-- What a group can come to. -/
inductive Reachable (g : Roster) : State → Prop
  | init : Reachable g (State.init g)
  | step {s s' : State} (reachable : Reachable g s) (next : Step g s s') : Reachable g s'

/-! ## What moves leave alone -/

theorem handle_eq_setNet (s : State) (p : NodeId) (f : Flood) :
    ∃ n, s.handle p f = s.setNet n := by
  unfold State.handle
  split
  · split
    · exact ⟨s.net, rfl⟩
    · exact ⟨_, rfl⟩
  · exact ⟨_, rfl⟩
  · exact ⟨s.net, rfl⟩

/-- A sending that nothing follows is over. -/
theorem finish_of_none {x : Sending} (h : x.envelope = none) (s : State)
    (sendings : List Sending) : s.finish x sendings = s.setNet (s.net.finish x sendings) := by
  simp only [State.finish, h]

theorem routed_finish_of_none {x : Sending} (h : x.envelope = none) (n : Flooding.State)
    (sendings : List Sending) : (n.finish x sendings).routed = n.routed := by
  simp only [Flooding.State.finish, h, Option.toList_none, List.map_nil, List.append_nil]

/-- An envelope that was passed on is handled after that. -/
theorem finish_of_some {x : Sending} {f : Flood} (h : x.envelope = some f) (s : State)
    (sendings : List Sending) :
    s.finish x sendings = (s.setNet (s.net.finish x sendings)).handle x.node f := by
  simp only [State.finish, h]

theorem finish_eq_setNet (s : State) (x : Sending) (sendings : List Sending) :
    ∃ n, s.finish x sendings = s.setNet n := by
  cases hx : x.envelope with
  | none => exact ⟨_, finish_of_none hx s sendings⟩
  | some f =>
    rw [finish_of_some hx]
    exact handle_eq_setNet (s.setNet (s.net.finish x sendings)) x.node f

theorem arrive_eq_setNet (s : State) (q : NodeId) (line : String) (targets : List NodeId) :
    ∃ n, s.arrive q line targets = s.setNet n := by
  unfold State.arrive
  split
  · exact ⟨s.net, rfl⟩
  split
  · rename_i frame _ _
    unfold State.receive
    split
    · exact ⟨s.net, rfl⟩
    · split
      · rename_i f m _ _
        exact handle_eq_setNet (s.setNet ((s.net.setMember q m).route q f)) q f
      · exact ⟨_, rfl⟩
  · exact ⟨_, rfl⟩
  · exact ⟨s.net, rfl⟩

/-- What moves are members and lines: nothing is sent anew, and nothing is handed over. -/
theorem Move.eq_setNet {g : Roster} {s s' : State} (h : Move g s s') : ∃ n, s' = s.setNet n := by
  cases h with
  | enqueue | write | goOn | announce | watch => exact ⟨_, rfl⟩
  | finish => exact finish_eq_setNet s _ _
  | @arrive h before after targets =>
    exact arrive_eq_setNet (s.setNet { s.net with underWay := before ++ after }) h.target h.line
      targets

/-! ## Bounds and rest -/

/-- No member has proposed the last number of the range. -/
def State.NumbersLeft (g : Roster) (s : State) : Prop :=
  ∀ p ∈ g.ids, (s.net.members p).sequencer.maxProposed ≠ 18446744073709551615

/-- Nothing is on its way: no line waits or stands on a link, no sending is under way, no vote is
    still to be counted, and no delivery still to be handed over. -/
structure State.Quiet (g : Roster) (s : State) : Prop where
  sendings : s.net.sendings = []
  underWay : s.net.underWay = []
  waiting : ∀ p ∈ g.ids, ∀ q ∈ g.ids, (s.net.members p).peers.waiting q = []
  inboxes : ∀ p ∈ g.ids, ∀ c ∈ (s.net.members p).collectors, c.inbox = []
  released : ∀ p ∈ g.ids, (s.net.members p).released = []

end Stack

end AgreedOrder
