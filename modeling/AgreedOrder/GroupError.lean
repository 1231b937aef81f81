/-
  AgreedOrder.GroupError

  What can go wrong in the group, and the words for it.
-/

import AgreedOrder.Envelope

namespace AgreedOrder

/-- Why the group refuses something. -/
inductive GroupError
  /-- The addressee is not, or no longer, in the group. -/
  | unknownPeer (id : NodeId)
  /-- Nobody reads the addressee's queue any more. -/
  | queueClosed (id : NodeId)
  /-- The member stopped while a queue was full. -/
  | channelClosed
  /-- The member was started before. -/
  | alreadyStarted
  /-- The message is not held: it was never asked for, or is delivered or dropped. -/
  | unknownMessage (id : MessageId)
  deriving DecidableEq

/-- The words for an error. -/
def GroupError.message : GroupError → String
  | .unknownPeer id => "unknown peer: " ++ id
  | .queueClosed id => "outbound queue closed for peer " ++ id
  | .channelClosed => "channel closed"
  | .alreadyStarted => "group already started"
  | .unknownMessage id => "unknown message id: " ++ id.toText

end AgreedOrder
