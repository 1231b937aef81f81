/-
  AgreedOrder.Member.Background

  What a member does of its own accord after something happened to it: it
  releases messages when the group has changed, and announces an agreement
  when the votes on a message are complete.
-/

import AgreedOrder.IdSource
import AgreedOrder.Member.Ordering

namespace AgreedOrder

open Json

namespace Collector

/-- Whether the collection is over: there is a vote, and every live member has voted. -/
def isComplete (c : Collector) (live : List NodeId) : Bool :=
  0 < c.votes.size && c.votes.covers live

/-- Count proposals one by one until the collection is over. -/
def count (live : List NodeId) : List Proposal → Collector → Bool × Collector
  | [], c => (false, c)
  | p :: rest, c =>
    let c := { c with votes := c.votes.record p }
    if c.isComplete live then (true, c) else count live rest c

/-- Take into account what came in: the proposals, and then the changes of the group. Tells
    whether the collection is over. -/
def advance (c : Collector) (live : List NodeId) (changes : Nat) : Bool × Collector :=
  let (isOver, counted) := count live c.inbox c
  let counted := { counted with inbox := [] }
  -- Proposals that came in after the last one needed are not counted.
  if isOver then (true, counted)
  else if counted.seenChanges = changes then (false, counted)
  else
    let counted := { counted with seenChanges := changes }
    (counted.isComplete live, counted)

end Collector

namespace Member

/-- Release messages if the group has changed since the last time. -/
def watchGroup (m : Member) : Member :=
  if m.seenChanges = m.peers.changes then m
  else release { m with seenChanges := m.peers.changes }

/-- Announce the agreement of a collection of votes that is over. -/
def announce (m : Member) (floodId : MessageId) (v : Votes) : Member :=
  match v.agreement with
  | none => m
  | some agreement => (m.flood floodId .agreement (Record.encode agreement)).2

/-- Let every collection take into account what came in. Those that are over are taken out. -/
def advanceCollectors (m : Member) : List Votes × Member :=
  let advanced := m.collectors.map (·.advance m.peers.liveIds m.peers.changes)
  ((advanced.filter (·.1)).map (·.2.votes),
    { m with collectors := (advanced.filter (!·.1)).map (·.2) })

/-- Everything a running member does of its own accord until there is nothing left to do. -/
def settle (m : Member) (ids : IdSource) : Member × IdSource :=
  if m.stopped then (m, ids)
  else
    let (decided, m) := m.watchGroup.advanceCollectors
    decided.foldl
      (fun (m, ids) v =>
        let (id, ids) := ids.fresh
        (m.announce id v, ids))
      (m, ids)

end Member

end AgreedOrder
