/-
  AgreedOrder.IdSource

  Where fresh message ids come from: consecutive ids from a start that is
  chosen far from any other id in use.
-/

import AgreedOrder.MessageId

namespace AgreedOrder

/-- The ids issued so far are the `count` ids from `start` on. -/
structure IdSource where
  start : MessageId
  count : Nat

namespace IdSource

/-- The id that is `k` after the start. -/
def idAt (s : IdSource) (k : Nat) : MessageId := ⟨s.start.bits + BitVec.ofNat 128 k⟩

/-- The next id. -/
def fresh (s : IdSource) : MessageId × IdSource := (s.idAt s.count, { s with count := s.count + 1 })

/-- Whether an id was issued here. -/
def issued (s : IdSource) (id : MessageId) : Bool := (id.bits - s.start.bits).toNat < s.count

end IdSource

end AgreedOrder
