/-
  AgreedOrder.Bank.Processor

  The part of a node that carries out the transactions the group delivers. A
  message is a transaction if its body is one and its path is that of the
  transaction's type; any other message changes nothing.
-/

import AgreedOrder.Bank.BankError
import AgreedOrder.Dispatcher

namespace AgreedOrder.Bank

/-- How much a log line matters. -/
inductive LogLevel
  | info
  | warn
  | error
  deriving DecidableEq, Repr

/-- The name of a level. -/
def LogLevel.name : LogLevel → String
  | .info => "INFO"
  | .warn => "WARN"
  | .error => "ERROR"

/-- A line of the log. -/
structure LogLine where
  level : LogLevel
  text : String
  deriving DecidableEq

namespace Processor

/-- The transaction of a message. -/
def accept (path : String) (body : Bytes) : Except BankError Transaction :=
  match Transaction.decode body with
  | .error e => .error (.ofPayload e)
  | .ok t => if t.path = path then .ok t else .error (.pathMismatch t.type path)

/-- Carry out the transaction of a message. -/
def process (path : String) (body : Bytes) (l : Ledger) : Except BankError Ledger := do
  let t ← accept path body
  match l.apply t with
  | .ok l => .ok l
  | .error e => .error (.refused e)

/-- The ledger after a message: unchanged where the message is not carried out. -/
def handle (m : Message) (l : Ledger) : Ledger :=
  match process m.path m.body l with
  | .ok l => l
  | .error _ => l

/-- What is logged for a message: the transaction, if it is one, and what became of it. -/
def log (m : Message) (l : Ledger) : List LogLine :=
  let announced :=
    match accept m.path m.body with
    | .ok t => [⟨.info, t.type.name ++ ": " ++ t.display⟩]
    | .error _ => []
  match process m.path m.body l with
  | .ok l => announced ++ [⟨.info, l.snapshotLine⟩]
  | .error e => announced ++ [⟨.error, m.path ++ " err: " ++ e.message⟩]

/-- Let a handler take the messages on the paths of transactions. -/
def register {σ : Type} (handler : Message → σ → σ)
    (d : Dispatcher String (Message → σ → σ)) : Dispatcher String (Message → σ → σ) :=
  TransactionType.all.foldl (fun d type => d.bind type.path handler) d

end Processor

end AgreedOrder.Bank
