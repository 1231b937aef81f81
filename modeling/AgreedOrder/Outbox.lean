/-
  AgreedOrder.Outbox

  The queue of lines that wait to be written to one member. It has a capacity,
  a writing end that is gone once the member left the group, and a reading end
  that is gone once nobody would write the lines out.
-/

namespace AgreedOrder

/-- Lines that wait for one member, the oldest first. -/
structure Outbox where
  capacity : Nat
  lines : List String
  hasWriter : Bool
  hasReader : Bool
  deriving DecidableEq

namespace Outbox

/-- A queue with nothing in it and both ends in place. At least one line fits. -/
def init (capacity : Nat) : Outbox := ⟨max capacity 1, [], true, true⟩

/-- Whether another line would have to wait. -/
def isFull (b : Outbox) : Bool := b.capacity ≤ b.lines.length

/-- Add a line behind the others. -/
def push (b : Outbox) (line : String) : Outbox := { b with lines := b.lines ++ [line] }

/-- What is taken from a queue. -/
inductive Taken
  | line (s : String)
  | empty
  | disconnected

/-- Take the oldest line. A queue that is drained has ended once its writing end is gone. -/
def take (b : Outbox) : Taken × Outbox :=
  match b.lines with
  | line :: rest => (.line line, { b with lines := rest })
  | [] => (if b.hasWriter then .empty else .disconnected, b)

end Outbox

end AgreedOrder
