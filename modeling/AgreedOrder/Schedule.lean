/-
  AgreedOrder.Schedule

  A group of sequencers run through a fixed schedule: first every node answers
  the asks in an order of its own, each answer being counted as a vote; then
  every node takes the agreements in an order of its own, releasing what it
  can after each.
-/

import AgreedOrder.Sequencer
import AgreedOrder.Votes

namespace AgreedOrder

/-- What a node does when: the asks and the agreements it handles, by the position of the ask in
    the schedule. -/
structure NodeSchedule where
  node : NodeId
  asks : List Nat
  agreements : List Nat

/-- The asks of a schedule, and what each node does. -/
structure Schedule where
  asks : List Ask
  nodes : List NodeSchedule
  live : List NodeId

namespace Schedule

/-- Whether an id is among the live ones. -/
def isLive (s : Schedule) (id : NodeId) : Bool := s.live.contains id

/-- A node answers one ask, and its answer is counted. -/
def answerAsk (s : Schedule) (state : Sequencer × List Votes) (k : Nat) :
    Sequencer × List Votes :=
  match s.asks[k]? with
  | none => state
  | some ask =>
    let (proposal, sequencer) := state.1.onAsk ask
    (sequencer, state.2.modify k (·.record proposal))

/-- Every node answers its asks. -/
def answerAll (s : Schedule) : List Sequencer × List Votes :=
  s.nodes.foldl
    (fun (done, votes) n =>
      let (sequencer, votes) := n.asks.foldl s.answerAsk (Sequencer.init n.node, votes)
      (done ++ [sequencer], votes))
    ([], s.asks.map fun a => Votes.init a.id)

/-- A node takes one agreement and releases what it can. -/
def takeAgreement (s : Schedule) (votes : List Votes)
    (state : Sequencer × List (Except GroupError Delivery)) (k : Nat) :
    Sequencer × List (Except GroupError Delivery) :=
  match votes[k]?.bind Votes.agreement with
  | none => state
  | some agreement =>
    let (outcome, sequencer) := state.1.onAgreement agreement
    let refused :=
      match outcome with
      | .ok () => []
      | .error e => [.error e]
    let (released, sequencer) := sequencer.release s.isLive
    (sequencer, state.2 ++ refused ++ released.map .ok)

/-- What a run comes to: the votes on each ask, and each node's state with what it delivered. -/
def run (s : Schedule) :
    List Votes × List (Sequencer × List (Except GroupError Delivery)) :=
  let (sequencers, votes) := s.answerAll
  (votes, (sequencers.zip s.nodes).map fun (sequencer, n) =>
    n.agreements.foldl (s.takeAgreement votes) (sequencer, []))

end Schedule

end AgreedOrder
