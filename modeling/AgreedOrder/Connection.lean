/-
  AgreedOrder.Connection

  The receiving end of a link. The first line must be a handshake that names
  its sender; every later line that holds a frame is handed on, and every
  other one is skipped.
-/

import AgreedOrder.Envelope
import AgreedOrder.LineReader

namespace AgreedOrder.Connection

open Json

/-- The sender that the first line of a link names. -/
def sender? : LineItem → Option NodeId
  | .line s =>
    match (Record.decode? (Bytes.ofText s) : Option Handshake) with
    | some h => if h.sender.isEmpty then none else some h.sender
    | none => none
  | _ => none

/-- The frame that a line holds. -/
def frame? : LineItem → Option Frame
  | .line s => Record.decode? (Bytes.ofText s)
  | _ => none

/-- The frames that a link hands on, given what is read from it. -/
def frames : List LineItem → List Frame
  | [] => []
  | first :: rest => if (sender? first).isSome then rest.filterMap frame? else []

/-- The frames that chunks of bytes amount to. -/
def read (maxLength : Nat) (chunks : List Bytes) : List Frame :=
  frames (LineReader.readAll maxLength chunks)

/-- Those of them whose path is one of the protocol's. -/
def routed (maxLength : Nat) (chunks : List Bytes) : List Frame :=
  (read maxLength chunks).filter fun f => (ControlPath.ofText? f.path).isSome

end AgreedOrder.Connection
