/-
  AgreedOrder.Votes

  The proposals that the sender of a message collects. Once every live member
  has voted, the largest proposal wins; of equal ones, that of the larger
  process id.
-/

import AgreedOrder.Envelope
import AgreedOrder.SortedMap

namespace AgreedOrder

/-- The latest proposal of each process for one message. -/
structure Votes where
  id : MessageId
  numbers : SortedMap NodeId UInt64

namespace Votes

/-- No votes yet. -/
def init (id : MessageId) : Votes := ⟨id, ∅⟩

/-- The number of processes that voted. -/
def size (v : Votes) : Nat := v.numbers.size

/-- Count a proposal. One for another message changes nothing. -/
def record (v : Votes) (p : Proposal) : Votes :=
  if p.id = v.id then { v with numbers := v.numbers.insert p.voter p.number } else v

/-- Whether all of these processes voted. -/
def covers (v : Votes) (live : List NodeId) : Bool := live.all v.numbers.contains

/-- Whether a vote of one process wins over that of another. -/
def beats (a b : NodeId × UInt64) : Bool :=
  (compareLex (compareOn Prod.snd) (compareOn Prod.fst) a b).isGT

/-- The largest of a list of votes. -/
def winner : List (NodeId × UInt64) → Option (NodeId × UInt64)
  | [] => none
  | v :: rest => some (rest.foldl (fun best w => if beats w best then w else best) v)

/-- The agreement that the votes amount to. -/
def agreement (v : Votes) : Option Agreement :=
  (winner v.numbers.entries).map fun w => ⟨w.1, v.id, w.2⟩

end Votes

end AgreedOrder
