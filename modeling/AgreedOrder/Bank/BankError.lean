/-
  AgreedOrder.Bank.BankError

  What can go wrong in the bank, and the words for it.
-/

import AgreedOrder.Bank.Command
import AgreedOrder.Bank.Ledger
import AgreedOrder.Bank.NodeTable
import AgreedOrder.Bank.Payload
import AgreedOrder.GroupError

namespace AgreedOrder.Bank

/-- An error of the bank. -/
inductive BankError
  /-- The system could not read what was asked for. -/
  | io
  | table (f : TableFault)
  | command (line : String) (f : CommandFault)
  /-- Bytes that should hold a transaction do not. -/
  | unreadable
  | unknownType (name : String)
  /-- A transaction came on the path of the other type. -/
  | pathMismatch (type : TransactionType) (path : String)
  | refused (e : LedgerError)
  | group (e : GroupError)
  deriving DecidableEq

/-- The words for an error. What the system says is left out. -/
def BankError.message : BankError → String
  | .io => "I/O error: <system>"
  | .table f => "invalid node table: " ++ f.message
  | .command line f => "invalid command [" ++ line ++ "]: " ++ f.message
  | .unreadable => "serialization error"
  | .unknownType name => "unrecognized transaction type: " ++ name
  | .pathMismatch type path =>
    "transaction of type [" ++ type.name ++ "] delivered on path [" ++ path ++ "]"
  | .refused e => e.message
  | .group e => e.message

/-- An error of a payload as one of the bank. -/
def BankError.ofPayload : PayloadError → BankError
  | .unreadable => .unreadable
  | .unknownType name => .unknownType name

end AgreedOrder.Bank
