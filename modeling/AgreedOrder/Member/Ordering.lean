/-
  AgreedOrder.Member.Ordering

  The phases of a message. Its sender asks every member for a number; every
  member answers with a proposal; the sender announces the largest one. Asks
  and announcements are flooded, so that they reach every live member if they
  reach one; a proposal goes to the sender alone.
-/

import AgreedOrder.Member.Broadcast

namespace AgreedOrder.Member

open Json

/-! ## Sending -/

/-- Flood a body under an id. -/
def flood (m : Member) (id : MessageId) (path : ControlPath) (body : Bytes) :
    SendOutcome × Member :=
  m.multicast .reliable (Record.encode (Flood.mk id path.text body))

/-- Send a message in total order: flood an ask for it, and collect the votes. -/
def submit (m : Member) (id floodId : MessageId) (message : Message) : SendOutcome × Member :=
  let ask := Ask.mk m.self id (Record.encode message)
  let collector := Collector.mk (Votes.init id) [] m.peers.changes
  -- The collection is open before the ask is out.
  let m := { m with collectors := m.collectors ++ [collector] }
  match m.flood floodId .ask (Record.encode ask) with
  | (.failed e, m) =>
    (.failed e, { m with collectors := m.collectors.filter fun c => c.votes.id ≠ id })
  | result => result

/-! ## Handling -/

/-- Answer an ask. Its message is released at once if its sender has left. A member that waits for
    room in a queue goes no further. -/
def onAsk (m : Member) (body : Bytes) : SendOutcome × Member :=
  match (Record.decode? body : Option Ask) with
  | none => (.done, m)
  | some ask =>
    let (proposal, sequencer) := m.sequencer.onAsk ask
    let m := release { m with sequencer }
    match m.unicast ask.sender .proposal (Record.encode proposal) with
    | (.blocked, m) => (.blocked, m)
    | (_, m) => (.done, m)

/-- Take note of an announcement, and release what it settles. -/
def onAgreement (m : Member) (body : Bytes) : Member :=
  match (Record.decode? body : Option Agreement) with
  | none => m
  | some agreement => release { m with sequencer := (m.sequencer.onAgreement agreement).2 }

/-- Hand a proposal to the collection of votes on its message, if there is one. -/
def onProposal (m : Member) (body : Bytes) : Member :=
  match (Record.decode? body : Option Proposal) with
  | none => m
  | some proposal =>
    { m with
      collectors := m.collectors.map fun c =>
        if c.votes.id = proposal.id then { c with inbox := c.inbox ++ [proposal] } else c }

/-- Handle a flooded envelope. -/
def onFlood (m : Member) (f : Flood) : SendOutcome × Member :=
  match ControlPath.ofText? f.path with
  | some .ask => m.onAsk f.body
  | some .agreement => (.done, m.onAgreement f.body)
  | _ => (.done, m)

/-- Handle a frame on the reliable path. An envelope is handled the first time it comes; one that
    comes from another member is passed on to the group first, as it came. -/
def onReliable (m : Member) (frame : Frame) : SendOutcome × Member :=
  match (Record.decode? frame.body : Option Flood) with
  | none => (.done, m)
  | some f =>
    if m.received.contains f.id then (.done, m)
    else
      let m := { m with received := f.id :: m.received }
      -- What comes from this member itself has gone to the whole group already.
      if frame.sender = m.self then m.onFlood f
      else
        match m.multicast .reliable frame.body with
        | (.blocked, m) => (.blocked, m)
        | (_, m) => m.onFlood f

/-- What became of a frame that arrived. -/
inductive Receipt
  /-- There is no handler for its path. -/
  | unbound
  | handled
  /-- Its handler waits for room in a queue. -/
  | blocked
  deriving DecidableEq, Repr

/-- Handle a frame that arrives. -/
def receive (m : Member) (frame : Frame) : Receipt × Member :=
  match ControlPath.ofText? frame.path with
  | some .reliable =>
    match m.onReliable frame with
    | (.blocked, m) => (.blocked, m)
    | (_, m) => (.handled, m)
  | some .proposal => (.handled, m.onProposal frame.body)
  | _ => (.unbound, m)

/-- Handle a line that arrives, if it holds a frame. -/
def receiveLine (m : Member) (line : Bytes) : Option (Receipt × Member) :=
  (Record.decode? line : Option Frame).map m.receive

end AgreedOrder.Member
