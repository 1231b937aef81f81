/-
  AgreedOrder.Bank.NodeTable

  The table of the group's members. Its first line that is not blank holds
  their number; every other one holds an id, a host and a port. Blank lines
  count in line numbers and for nothing else.
-/

import AgreedOrder.Config
import AgreedOrder.Text.Blank
import AgreedOrder.Text.Bytes

namespace AgreedOrder.Bank

/-- Why a text is no node table. Lines are numbered from one. -/
inductive TableFault
  | empty
  | badCount (text : String)
  | badLine (number : Nat) (text : String)
  | badPort (number : Nat) (text : String)
  | unknownHost (number : Nat)
  | wrongCount (declared found : Nat)
  deriving DecidableEq

/-- The words for a fault. -/
def TableFault.message : TableFault → String
  | .empty => "empty node table"
  | .badCount text => "bad node count [" ++ text ++ "]"
  | .badLine number text =>
    "line " ++ toString number ++ ": expected \x60<id> <host> <port>\x60, got [" ++ text ++ "]"
  | .badPort number text => "line " ++ toString number ++ ": bad port [" ++ text ++ "]"
  | .unknownHost number => "line " ++ toString number ++ ": <lookup failed>"
  | .wrongCount declared found =>
    "header says " ++ toString declared ++ " nodes, found " ++ toString found

/-- What became of reading a table. -/
inductive TableOutcome
  | nodes (ns : List Node)
  | fault (f : TableFault)
  /-- The table of so many members would take up more bytes than may be asked for at once. -/
  | noRoom (count : Nat)
  deriving DecidableEq

namespace NodeTable

/-- The lines that are not blank, trimmed, with their numbers. -/
def numberedLines (text : String) : List (Nat × String) :=
  ((Text.lines text).map Text.trim).zipIdx 1 |>.filterMap fun (line, number) =>
    if line.isEmpty then none else some (number, line)

/-- The node of a line. -/
def node (number : Nat) (line : String) : Except TableFault Node :=
  match Text.fields line with
  | [id, host, port] =>
    match Text.numeral? .u16 port with
    | none => .error (.badPort number port)
    | some port =>
      match Address.ofHost? host (UInt16.ofNat port.toNat) with
      | none => .error (.unknownHost number)
      | some address => .ok ⟨id, address⟩
  | _ => .error (.badLine number line)

/-- The bytes that a member takes up in the table that is read. -/
def nodeSize : Nat := 56

/-- Whether the table of so many members takes up at most `2 ^ 63 - 1` bytes, the most that may be
    asked for at once. Memory that the machine refuses although it may be asked for is not modelled:
    it is taken to be there. -/
def hasRoom (count : Nat) : Bool := count * nodeSize ≤ 9223372036854775807

/-- Read a table. The number of members is checked last. -/
def parse (text : String) : TableOutcome :=
  match numberedLines text with
  | [] => .fault .empty
  | (_, header) :: lines =>
    match Text.numeral? .u64 header with
    | none => .fault (.badCount header)
    | some count =>
      if hasRoom count.toNat then
        match lines.mapM fun l => node l.1 l.2 with
        | .error f => .fault f
        | .ok ns =>
          if ns.length = count.toNat then .nodes ns else .fault (.wrongCount count.toNat ns.length)
      else .noRoom count.toNat

end NodeTable

/-- How a member of the bank's group runs. It listens on every interface, and is added to the
    members under the machine's own address if the table does not list it. -/
def groupConfig (self : NodeId) (port : UInt16) (members : List Node) : Config :=
  .standard self (.v4 .unspecified port)
    (Config.addMissing ⟨self, .v4 .loopback port⟩ members)

end AgreedOrder.Bank
