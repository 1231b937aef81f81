/-
  AgreedOrder.Group

  Several members on one network. What a member sends stands on its links, in
  order, until someone decides that it arrives. Between two decisions every
  member does all that it does of its own accord.
-/

import AgreedOrder.Dispatcher
import AgreedOrder.Envelope.Contents
import AgreedOrder.Member.Background

namespace AgreedOrder

open Json

/-! ## Links -/

/-- The two ends of a link: who writes to it, and who reads it. -/
structure LinkEnds where
  source : NodeId
  target : NodeId
  deriving DecidableEq

namespace LinkEnds

/-- Links are ordered by source, then by target. -/
def order : LinkEnds → LinkEnds → Ordering := compareLex (compareOn source) (compareOn target)

instance : Ord LinkEnds := ⟨order⟩

instance transCmp_order : Std.TransCmp order := by
  unfold order
  infer_instance

instance : Std.TransOrd LinkEnds := transCmp_order

theorem eq_of_order_eq {a b : LinkEnds} (h : order a b = .eq) : a = b := by
  simp only [order, compareLex_eq_eq, compareOn] at h
  cases a
  cases b
  simp only [LinkEnds.mk.injEq]
  exact ⟨Std.LawfulEqCmp.eq_of_compare h.1, Std.LawfulEqCmp.eq_of_compare h.2⟩

instance : Std.LawfulEqOrd LinkEnds where
  compare_self := Std.ReflCmp.compare_self
  eq_of_compare h := eq_of_order_eq h

end LinkEnds

/-- The lines that were ever written to a link, the oldest first, and how many of them are gone:
    handed over or dropped. -/
structure Link where
  lines : List String
  gone : Nat

namespace Link

/-- A link that nothing was written to. -/
def empty : Link := ⟨[], 0⟩

/-- The lines that are still under way. -/
def underWay (l : Link) : List String := l.lines.drop l.gone

end Link

/-! ## The group -/

/-- A member with its application. -/
structure Host (σ : Type) where
  member : Member
  app : σ

/-- Members, applications and links. -/
structure Group (σ : Type) where
  /-- The handlers of the application. -/
  routes : Dispatcher String (Message → σ → σ)
  hosts : SortedMap NodeId (Host σ)
  links : SortedMap LinkEnds Link
  ids : IdSource
  /-- The ids that came to light, in order. -/
  seen : List MessageId

namespace Group

variable {σ : Type}

/-- Note ids that came to light. -/
def note (g : Group σ) (ids : List MessageId) : Group σ :=
  { g with
    seen := ids.foldl (fun seen id => if seen.contains id then seen else seen ++ [id]) g.seen }

/-- The number of an id among those that members made up, counted from one in the order in which
    they came to light. -/
def label? (g : Group σ) (id : MessageId) : Option Nat :=
  if g.ids.issued id then ((g.seen.filter g.ids.issued).idxOf? id).map (· + 1) else none

/-- Change a member. -/
def setMember (g : Group σ) (id : NodeId) (m : Member) : Group σ :=
  { g with hosts := g.hosts.modify id fun h => { h with member := m } }

/-- The member of an id, if it runs. -/
def running? (g : Group σ) (id : NodeId) : Option Member :=
  (g.hosts.get? id).bind fun h => if h.member.stopped then none else some h.member

/-! ## What happens of itself -/

/-- Hand a released message to the application. -/
def deliver (routes : Dispatcher String (Message → σ → σ)) (app : σ) (d : Delivery) : σ :=
  match (Record.decode? d.body : Option Message) with
  | none => app
  | some m => (routes.route Message.path m app).2

/-- A host does what it does of its own accord, and its application takes what is released. -/
def settleHost (g : Group σ) (id : NodeId) : Group σ :=
  match g.hosts.get? id with
  | none => g
  | some h =>
    if h.member.stopped then g
    else
      let (m, ids) := h.member.settle g.ids
      let h : Host σ :=
        ⟨{ m with released := [] }, m.released.foldl (deliver g.routes) h.app⟩
      { g with ids, hosts := g.hosts.insert id h }

/-- Write to a link what waits for its target. -/
def writeLink (g : Group σ) (e : LinkEnds) : Group σ :=
  match g.running? e.source with
  | none => g
  | some m =>
    let (lines, peers) := m.peers.takeLines e.target
    let ids := lines.flatMap fun line =>
      match (Record.decode? (Bytes.ofText line) : Option Frame) with
      | some f => f.contents.ids
      | none => []
    let g := (g.setMember e.source { m with peers }).note ids
    { g with links := g.links.modify e fun l => { l with lines := l.lines ++ lines } }

/-- All that happens of itself. -/
def settle (g : Group σ) : Group σ :=
  -- Members act before anything is written, so that the order of members does not show.
  let g := g.hosts.keys.foldl settleHost g
  g.links.keys.foldl writeLink g

/-! ## Starting -/

/-- A member dials another one: the link stands, or the other one is given up. -/
def dial (dials : NodeId → NodeId → Bool) (source : NodeId) (g : Group σ) (target : NodeId) :
    Group σ :=
  match g.running? source with
  | none => g
  | some m =>
    if dials source target then
      match m.peers.markConnected target with
      | .ok peers =>
        { g.setMember source { m with peers } with
          links := g.links.insert ⟨source, target⟩ Link.empty }
      | .error _ => g
    else g.setMember source (m.eject target).2

/-- A group whose members have dialed each other. -/
def start (routes : Dispatcher String (Message → σ → σ)) (ids : IdSource)
    (dials : NodeId → NodeId → Bool) (app : σ) (members : List Member) : Group σ :=
  let hosts := members.foldl (fun hs m => hs.insert m.self ⟨m, app⟩) ∅
  let g : Group σ := ⟨routes, hosts, ∅, ids, []⟩
  settle <| hosts.entries.foldl
    (fun g (id, h) => h.member.peers.liveIds.foldl (dial dials id) g) g

/-- The handshake line of each link. -/
def handshakes (g : Group σ) : List (LinkEnds × String) :=
  g.links.keys.map fun e => (e, Record.encodeText (Handshake.mk e.source))

/-- Start a member once more. Whoever is in the group was started with it, and there is nobody else
    to start. -/
def restart (g : Group σ) (id : NodeId) : GroupError :=
  if g.hosts.contains id then .alreadyStarted else .unknownPeer id

end Group

end AgreedOrder
