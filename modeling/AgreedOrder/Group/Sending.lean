/-
  AgreedOrder.Group.Sending

  What the members of a group are told to send.
-/

import AgreedOrder.Group

namespace AgreedOrder.Group

variable {σ : Type}

/-- Let a member send something, and what follows happen. -/
def send (g : Group σ) (node : NodeId) (act : Member → SendOutcome × Member) :
    SendOutcome × Group σ :=
  match g.hosts.get? node with
  | none => (.failed (.unknownPeer node), g)
  | some h =>
    let (outcome, m) := act h.member
    (outcome, (g.setMember node m).settle)

/-- Let a member send something under an id. If the id is shown to whoever asked for it, it comes to
    light before what is sent. -/
def sendUnder (g : Group σ) (node : NodeId) (id : MessageId) (shown : Bool)
    (act : Member → SendOutcome × Member) : Except SendOutcome MessageId × Group σ :=
  match g.hosts.get? node with
  | none => (.error (.failed (.unknownPeer node)), g)
  | some h =>
    match act h.member with
    | (.done, m) => (.ok id, ((g.setMember node m).note (if shown then [id] else [])).settle)
    -- The id is not shown, but what was sent before it failed stands on the links.
    | (outcome, m) => (.error outcome, (g.setMember node m).settle)

/-- Send a message in total order. -/
def submit (g : Group σ) (node : NodeId) (message : Message) (shown : Bool) :
    Except SendOutcome MessageId × Group σ :=
  let (id, ids) := g.ids.fresh
  let (floodId, ids) := ids.fresh
  { g with ids }.sendUnder node id shown (·.submit id floodId message)

/-- Send a body by reliable multicast. -/
def flood (g : Group σ) (node : NodeId) (path : ControlPath) (body : Bytes) :
    Except SendOutcome MessageId × Group σ :=
  let (id, ids) := g.ids.fresh
  { g with ids }.sendUnder node id true (·.flood id path body)

/-- Send a body by basic multicast. -/
def multicast (g : Group σ) (node : NodeId) (path : ControlPath) (body : Bytes) :
    SendOutcome × Group σ :=
  g.send node (·.multicast path body)

/-- Send a body to one member. -/
def unicast (g : Group σ) (node target : NodeId) (path : ControlPath) (body : Bytes) :
    SendOutcome × Group σ :=
  g.send node (·.unicast target path body)

end AgreedOrder.Group
