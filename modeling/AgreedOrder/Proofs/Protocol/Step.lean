/-
  AgreedOrder.Proofs.Protocol.Step

  A group that agrees on an order, seen from outside: its members, and the
  asks, proposals and agreements on their way between them. Asks and
  agreements are flooded, so each is handed to each member at most once and
  after any delay; a flood is lost only when every member that had it has
  crashed. A step is one thing that happens to one member.

    * `State` — the members, what is on its way, and what was said so far.
    * `Step`, `Reachable` — what can happen.
-/

import AgreedOrder.Member.Background

namespace AgreedOrder

open Json

/-! ## Handling apart from the queues -/

namespace Member

/-- Open the collection of votes on a message. -/
def openCollector (m : Member) (id : MessageId) : Member :=
  { m with collectors := m.collectors ++ [⟨Votes.init id, [], m.peers.changes⟩] }

/-- The envelope in which a member asks for a number for a message of its own. -/
def askEnvelope (m : Member) (id floodId : MessageId) (message : Message) : Flood :=
  ⟨floodId, ControlPath.ask.text, Record.encode (Ask.mk m.self id (Record.encode message))⟩

/-- Answer an ask, and release what can be released. -/
def answer (m : Member) (ask : Ask) : Proposal × Member :=
  ((m.sequencer.onAsk ask).1, release { m with sequencer := (m.sequencer.onAsk ask).2 })

/-- Take note of an agreement, and release what it settles. -/
def adopt (m : Member) (a : Agreement) : Member :=
  release { m with sequencer := (m.sequencer.onAgreement a).2 }

/-- Hand a proposal to the collection of votes on its message. -/
def collect (m : Member) (p : Proposal) : Member :=
  { m with
    collectors := m.collectors.map fun c =>
      if c.votes.id = p.id then { c with inbox := c.inbox ++ [p] } else c }

end Member

namespace Protocol

/-! ## States -/

/-- The members of a group, each with an id of its own, and how many lines may wait for each. -/
structure Roster where
  nodes : List Node
  capacity : Nat
  nodup : (nodes.map (·.id)).Nodup

/-- The ids of the members. -/
def Roster.ids (g : Roster) : List NodeId := g.nodes.map (·.id)

/-- The members of a group and what is on its way between them. The last four fields are a record
    of what was said, which no member reads. -/
structure State where
  members : NodeId → Member
  /-- The asks that are still to be handed to a member. -/
  asks : List (NodeId × Ask)
  /-- The proposals on their way to the sender of a message. -/
  proposals : List (NodeId × Proposal)
  /-- The agreements that are still to be handed to a member. -/
  agreements : List (NodeId × Agreement)
  asked : List Ask
  answered : List Proposal
  announced : List Agreement
  /-- The agreements that were handed to a member. -/
  taken : List (NodeId × Agreement)

namespace State

/-- A group that has said nothing. -/
def init (g : Roster) : State :=
  { members := fun p => Member.init p g.nodes g.capacity
    asks := [], proposals := [], agreements := []
    asked := [], answered := [], announced := [], taken := [] }

/-- Put a member in another state. -/
def setMember (s : State) (p : NodeId) (m : Member) : State :=
  { s with members := fun q => if q = p then m else s.members q }

/-- Whether a member has not crashed. -/
def Running (s : State) (p : NodeId) : Prop := (s.members p).stopped = false

/-- The messages that a member has delivered, in order. -/
def delivered (s : State) (p : NodeId) : List Delivery := (s.members p).released

/-- The sender of a message asks the whole group for a number. -/
def submit (s : State) (g : Roster) (ask : Ask) : State :=
  { s.setMember ask.sender ((s.members ask.sender).openCollector ask.id) with
    asks := s.asks ++ g.ids.map (·, ask)
    asked := s.asked ++ [ask] }

/-- A member answers an ask. The answer goes out if the member counts the sender as live. -/
def takeAsk (s : State) (p : NodeId) (ask : Ask) : State :=
  { s.setMember p ((s.members p).answer ask).2 with
    asks := s.asks.erase (p, ask)
    proposals := s.proposals ++
      if (s.members p).peers.isLive ask.sender then [(ask.sender, ((s.members p).answer ask).1)]
      else []
    answered := s.answered ++ [((s.members p).answer ask).1] }

/-- A proposal arrives. -/
def takeProposal (s : State) (p : NodeId) (v : Proposal) : State :=
  { s.setMember p ((s.members p).collect v) with proposals := s.proposals.erase (p, v) }

/-- A collection of votes takes into account what came in, and goes on. -/
def setCollectors (s : State) (p : NodeId) (cs : List Collector) : State :=
  s.setMember p { s.members p with collectors := cs }

/-- A collection of votes is over, and its agreement goes to the whole group. -/
def announce (s : State) (g : Roster) (p : NodeId) (cs : List Collector) (a : Agreement) : State :=
  { s.setCollectors p cs with
    agreements := s.agreements ++ g.ids.map (·, a)
    announced := s.announced ++ [a] }

/-- A member is handed an agreement. -/
def takeAgreement (s : State) (p : NodeId) (a : Agreement) : State :=
  { s.setMember p ((s.members p).adopt a) with
    agreements := s.agreements.erase (p, a)
    taken := s.taken ++ [(p, a)] }

end State

/-! ## Steps -/

/-- What can happen in a group. Only a running member acts, and it takes another one out of the
    group only when that one has crashed. -/
inductive Step (g : Roster) : State → State → Prop
  | submit {s : State} {p : NodeId} {id : MessageId} {message : Message}
      (member : p ∈ g.ids) (running : s.Running p) (fresh : ∀ a ∈ s.asked, a.id ≠ id) :
      Step g s (s.submit g ⟨p, id, Record.encode message⟩)
  | takeAsk {s : State} {p : NodeId} {ask : Ask}
      (running : s.Running p) (underWay : (p, ask) ∈ s.asks) : Step g s (s.takeAsk p ask)
  | takeProposal {s : State} {p : NodeId} {v : Proposal}
      (running : s.Running p) (underWay : (p, v) ∈ s.proposals) : Step g s (s.takeProposal p v)
  | goOn {s : State} {p : NodeId} {c c' : Collector} {before after : List Collector}
      (running : s.Running p) (collecting : (s.members p).collectors = before ++ c :: after)
      (advanced : c.advance (s.members p).peers.liveIds (s.members p).peers.changes = (false, c')) :
      Step g s (s.setCollectors p (before ++ c' :: after))
  | announce {s : State} {p : NodeId} {c c' : Collector} {before after : List Collector}
      {a : Agreement}
      (running : s.Running p) (collecting : (s.members p).collectors = before ++ c :: after)
      (advanced : c.advance (s.members p).peers.liveIds (s.members p).peers.changes = (true, c'))
      (agreement : c'.votes.agreement = some a) :
      Step g s (s.announce g p (before ++ after) a)
  | takeAgreement {s : State} {p : NodeId} {a : Agreement}
      (running : s.Running p) (underWay : (p, a) ∈ s.agreements) :
      Step g s (s.takeAgreement p a)
  | watch {s : State} {p : NodeId} (running : s.Running p) :
      Step g s (s.setMember p (s.members p).watchGroup)
  | crash {s : State} {p : NodeId} (member : p ∈ g.ids) (running : s.Running p) :
      Step g s (s.setMember p (s.members p).stop)
  | eject {s : State} {p q : NodeId} (running : s.Running p) (crashed : ¬s.Running q) :
      Step g s (s.setMember p ((s.members p).eject q).2)
  /-- An ask dies out with the members that had it. -/
  | loseAsk {s : State} {ask : Ask} (sender : ¬s.Running ask.sender)
      (holders : ∀ v ∈ s.answered, v.id = ask.id → ¬s.Running v.voter) :
      Step g s { s with asks := s.asks.filter (·.2 ≠ ask) }
  /-- An agreement dies out with the members that had it. -/
  | loseAgreement {s : State} {a : Agreement}
      (sender : ∀ ask ∈ s.asked, ask.id = a.id → ¬s.Running ask.sender)
      (holders : ∀ p, (p, a) ∈ s.taken → ¬s.Running p) :
      Step g s { s with agreements := s.agreements.filter (·.2 ≠ a) }
  | dropAsk {s : State} {p : NodeId} {ask : Ask} (crashed : ¬s.Running p) :
      Step g s { s with asks := s.asks.erase (p, ask) }
  | dropAgreement {s : State} {p : NodeId} {a : Agreement} (crashed : ¬s.Running p) :
      Step g s { s with agreements := s.agreements.erase (p, a) }
  /-- A proposal is lost only when one of its ends has crashed. -/
  | dropProposal {s : State} {p : NodeId} {v : Proposal}
      (crashed : ¬s.Running p ∨ ¬s.Running v.voter) :
      Step g s { s with proposals := s.proposals.erase (p, v) }

/-- What a group can come to. -/
inductive Reachable (g : Roster) : State → Prop
  | init : Reachable g (State.init g)
  | step {s s' : State} (reachable : Reachable g s) (next : Step g s s') : Reachable g s'

/-- No member has proposed the last number of the range. -/
def State.NumbersLeft (g : Roster) (s : State) : Prop :=
  ∀ p ∈ g.ids, (s.members p).sequencer.maxProposed ≠ 18446744073709551615

instance (g : Roster) (s : State) : Decidable (s.NumbersLeft g) :=
  inferInstanceAs (Decidable (∀ p ∈ g.ids, _))

instance (s : State) (p : NodeId) : Decidable (s.Running p) :=
  inferInstanceAs (Decidable ((s.members p).stopped = false))

end Protocol

end AgreedOrder
