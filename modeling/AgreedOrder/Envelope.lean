/-
  AgreedOrder.Envelope

  What nodes say to each other. A link carries a handshake and then frames. A
  frame on the reliable path carries a flooded envelope; a flooded envelope
  carries an ask or an agreement; an ask carries the application's message.
  Each level stands encoded in the body of the level around it.
-/

import AgreedOrder.ControlPath
import AgreedOrder.Json.Record

namespace AgreedOrder

open Json

/-- The name of a member of the group. -/
abbrev NodeId := String

/-! ## Transport -/

/-- The first line of a link: who is calling. -/
structure Handshake where
  sender : NodeId
  deriving DecidableEq

/-- What one node hands to another: a body for a path. The sender is the node at the other end of
    the link, which need not be the origin of what the body holds. -/
structure Frame where
  sender : NodeId
  path : String
  body : Bytes
  deriving DecidableEq

/-- An envelope that is flooded through the group under an id of its own. -/
structure Flood where
  id : MessageId
  path : String
  body : Bytes
  deriving DecidableEq

/-- A message of the application. -/
structure Message where
  path : String
  body : Bytes
  deriving DecidableEq

/-! ## Agreement -/

/-- The sender of a message asks every member for a sequence number. The body is the encoded
    message. -/
structure Ask where
  sender : NodeId
  id : MessageId
  body : Bytes
  deriving DecidableEq

/-- A member's answer: the number it proposes. -/
structure Proposal where
  voter : NodeId
  id : MessageId
  number : UInt64
  deriving DecidableEq

/-- The sender's decision: the largest number proposed, and who proposed it. -/
structure Agreement where
  voter : NodeId
  id : MessageId
  number : UInt64
  deriving DecidableEq

/-! ## Records -/

instance : Record Handshake where
  names := ["from"]
  write h := [.text h.sender]
  read
    | [sender] => (textField? sender).map Handshake.mk
    | _ => none

instance : Record Frame where
  names := ["src", "path", "body"]
  write f := [.text f.sender, .text f.path, .text (Base64.encode f.body)]
  read
    | [sender, path, body] => do
      some ⟨← textField? sender, ← textField? path, ← bytesField? body⟩
    | _ => none

instance : Record Flood where
  names := ["id", "path", "body"]
  write f := [.text f.id.toText, .text f.path, .text (Base64.encode f.body)]
  read
    | [id, path, body] => do some ⟨← idField? id, ← textField? path, ← bytesField? body⟩
    | _ => none

instance : Record Message where
  names := ["path", "body"]
  write m := [.text m.path, .text (Base64.encode m.body)]
  read
    | [path, body] => do some ⟨← textField? path, ← bytesField? body⟩
    | _ => none

instance : Record Ask where
  names := ["src", "msg_id", "body"]
  write a := [.text a.sender, .text a.id.toText, .text (Base64.encode a.body)]
  read
    | [sender, id, body] => do some ⟨← textField? sender, ← idField? id, ← bytesField? body⟩
    | _ => none

instance : Record Proposal where
  names := ["process_id", "msg_id", "proposal_seq"]
  write p := [.text p.voter, .text p.id.toText, .whole p.number.toNat]
  read
    | [voter, id, number] => do
      some ⟨← textField? voter, ← idField? id, ← numberField? number⟩
    | _ => none

instance : Record Agreement where
  names := ["process_id", "msg_id", "agreement_seq"]
  write a := [.text a.voter, .text a.id.toText, .whole a.number.toNat]
  read
    | [voter, id, number] => do
      some ⟨← textField? voter, ← idField? id, ← numberField? number⟩
    | _ => none

end AgreedOrder
