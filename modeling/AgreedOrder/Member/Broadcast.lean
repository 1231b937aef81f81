/-
  AgreedOrder.Member.Broadcast

  Basic multicast: a frame to every live member, the sender included, or to
  one. A frame is counted for all it is addressed to before it enters a queue.
  A member whose queue nobody reads is passed over by a multicast.
-/

import AgreedOrder.Member

namespace AgreedOrder.Member

open Json

/-- A frame of this member as it is written on a line. -/
def frameLine (m : Member) (path : ControlPath) (body : Bytes) : String :=
  Record.encodeText (Frame.mk m.self path.text body)

/-- What comes of a full queue: a wait, or an error once the member is stopped. -/
def whenFull (m : Member) : SendOutcome := if m.stopped then .failed .channelClosed else .blocked

/-- Put a line into the queues of members, one after the other, up to the first full one. -/
def enqueueAll (line : String) : List NodeId → Member → SendOutcome × Member
  | [], m => (.done, m)
  | id :: rest, m =>
    match m.peers.enqueue id line with
    | (.full, _) => (m.whenFull, m)
    -- A queue that nobody reads is passed over.
    | (_, peers) => enqueueAll line rest { m with peers }

/-- Send a body to every live member, here in the order of their ids. The table of queues of a
    running member may have any other (`Flooding.Step`). -/
def multicast (m : Member) (path : ControlPath) (body : Bytes) : SendOutcome × Member :=
  let line := m.frameLine path body
  enqueueAll line m.peers.liveIds { m with peers := m.peers.countForAll line }

/-- Send a body to one live member. -/
def unicast (m : Member) (target : NodeId) (path : ControlPath) (body : Bytes) :
    SendOutcome × Member :=
  let line := m.frameLine path body
  match m.peers.countFor target line with
  | .error e => (.failed e, m)
  | .ok peers =>
    let m := { m with peers }
    match peers.enqueue target line with
    | (.queued, peers) => (.done, { m with peers })
    | (.full, _) => (m.whenFull, m)
    | (.closed, _) => (.failed (.queueClosed target), m)

end AgreedOrder.Member
