/-
  AgreedOrder.Envelope.Contents

  A frame with its nested envelopes opened, as far as each level can be read.
-/

import AgreedOrder.Envelope

namespace AgreedOrder

open Json

/-- What the body of an ask holds. -/
inductive AskContents
  | message (m : Message)
  | raw (b : Bytes)

/-- What the body of a flooded envelope holds. -/
inductive FloodContents
  | ask (sender : NodeId) (id : MessageId) (contents : AskContents)
  | agreement (a : Agreement)
  | raw (b : Bytes)

/-- What the body of a frame holds. -/
inductive FrameContents
  | flood (id : MessageId) (path : String) (contents : FloodContents)
  | proposal (p : Proposal)
  | raw (b : Bytes)

/-- The ids in a frame: that of the envelope before that of the message. -/
def FrameContents.ids : FrameContents → List MessageId
  | .flood id _ (.ask _ msgId _) => [id, msgId]
  | .flood id _ (.agreement a) => [id, a.id]
  | .flood id _ (.raw _) => [id]
  | .proposal p => [p.id]
  | .raw _ => []

/-- The contents of an ask: a message if its body is one. -/
def Ask.contents (a : Ask) : AskContents :=
  match Record.decode? a.body with
  | some m => .message m
  | none => .raw a.body

/-- The contents of a flooded envelope: what its path promises, if its body is that. -/
def Flood.contents (f : Flood) : FloodContents :=
  match ControlPath.ofText? f.path with
  | some .ask =>
    match (Record.decode? f.body : Option Ask) with
    | some a => .ask a.sender a.id a.contents
    | none => .raw f.body
  | some .agreement =>
    match Record.decode? f.body with
    | some a => .agreement a
    | none => .raw f.body
  | _ => .raw f.body

/-- The contents of a frame: what its path promises, if its body is that. -/
def Frame.contents (f : Frame) : FrameContents :=
  match ControlPath.ofText? f.path with
  | some .reliable =>
    match (Record.decode? f.body : Option Flood) with
    | some e => .flood e.id e.path e.contents
    | none => .raw f.body
  | some .proposal =>
    match Record.decode? f.body with
    | some p => .proposal p
    | none => .raw f.body
  | _ => .raw f.body

end AgreedOrder
