/-
  AgreedOrder.Bank.Replica

  The application of a bank's node: its ledger, the log of its processor, and
  the messages on paths that somebody watches.
-/

import AgreedOrder.Bank.Processor

namespace AgreedOrder.Bank

/-- The state of a node's application. -/
structure Replica where
  ledger : Ledger
  /-- What the processor logged, the oldest first. -/
  log : List LogLine
  /-- The messages delivered on watched paths, the oldest first. -/
  watched : List Message

namespace Replica

/-- A replica that nothing was delivered to. -/
def init : Replica := ⟨∅, [], []⟩

/-- Carry out the transaction of a message. -/
def carryOut (m : Message) (r : Replica) : Replica :=
  { r with ledger := Processor.handle m r.ledger, log := r.log ++ Processor.log m r.ledger }

/-- Record a message. -/
def watch (m : Message) (r : Replica) : Replica := { r with watched := r.watched ++ [m] }

/-- The handlers of a node: transactions are carried out, and messages on other paths recorded. A
    path that is watched is not carried out. -/
def routes (watchedPaths : List String) : Dispatcher String (Message → Replica → Replica) :=
  watchedPaths.foldl (fun d path => d.bind path watch) (Processor.register carryOut ∅)

end Replica

end AgreedOrder.Bank
