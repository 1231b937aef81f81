/-
  AgreedOrder.Config

  The members of a group as one of them knows them, and how it runs.
-/

import AgreedOrder.Address
import AgreedOrder.Envelope

namespace AgreedOrder

/-- A member of the group and where it listens. -/
structure Node where
  id : NodeId
  address : Address
  deriving DecidableEq

/-- How a member of the group runs. Times are in milliseconds. -/
structure Config where
  self : NodeId
  /-- Where this member listens. -/
  bind : Address
  /-- The members as configured, with or without this one. -/
  members : List Node
  dialRetryInterval : Nat
  dialTimeout : Nat
  /-- The number of dials after which a member is given up; none is to go on for ever. -/
  maxDialAttempts : Option Nat
  /-- How many frames may wait for one member. -/
  outboundCapacity : Nat
  /-- How many frames may wait to be handled. -/
  inboundCapacity : Nat
  /-- The longest line that is read, in bytes. -/
  maxLineLength : Nat

namespace Config

/-- A member with the usual limits. -/
def standard (self : NodeId) (bind : Address) (members : List Node) : Config :=
  ⟨self, bind, members, 5000, 10000, none, 1000, 1000, 1048576⟩

/-- The member that nobody configured. -/
def default : Config := standard "" (.v4 .unspecified 8900) []

/-- A member with the short limits of a trial. -/
def trial (self : NodeId) (bind : Address) (members : List Node) : Config :=
  ⟨self, bind, members, 50, 1000, some 100, 64, 64, 65536⟩

/-- Each id once, with the node it was first given to. -/
def firstById : List Node → List Node
  | [] => []
  | n :: rest => n :: (firstById rest).filter fun m => m.id ≠ n.id

/-- Add a node at the end unless its id is there already. -/
def addMissing (n : Node) (nodes : List Node) : List Node :=
  if nodes.any (·.id == n.id) then nodes else nodes ++ [n]

/-- The group: the configured members and this one, each id once. -/
def membership (c : Config) : List Node := addMissing ⟨c.self, c.bind⟩ (firstById c.members)

end Config

end AgreedOrder
