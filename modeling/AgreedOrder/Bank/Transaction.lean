/-
  AgreedOrder.Bank.Transaction

  What the bank can be told to do: put money into an account, or move money
  from one account to another.
-/

import AgreedOrder.SortedMap

namespace AgreedOrder.Bank

/-- The name of an account. -/
abbrev Account := String

/-- A deposit or a transfer. -/
inductive Transaction
  | deposit (account : Account) (amount : Int64)
  | transfer (source target : Account) (amount : Int64)
  deriving DecidableEq

/-- The two types of transactions. -/
inductive TransactionType
  | deposit
  | transfer
  deriving DecidableEq, Repr

namespace TransactionType

/-- The name of a type. -/
def name : TransactionType → String
  | .deposit => "deposit"
  | .transfer => "transfer"

/-- The path that transactions of a type are sent on. -/
def path : TransactionType → String
  | .deposit => "/transaction/deposit"
  | .transfer => "/transaction/transfer"

/-- Both types. -/
def all : List TransactionType := [.deposit, .transfer]

/-- The type with a name. -/
def ofName? (s : String) : Option TransactionType := all.find? (·.name == s)

end TransactionType

namespace Transaction

/-- The type of a transaction. -/
def type : Transaction → TransactionType
  | .deposit .. => .deposit
  | .transfer .. => .transfer

/-- The path that a transaction is sent on. -/
def path (t : Transaction) : String := t.type.path

/-- A transaction as a command. -/
def display : Transaction → String
  | .deposit account amount => "DEPOSIT " ++ account ++ " " ++ toString amount.toInt
  | .transfer source target amount =>
    "TRANSFER " ++ source ++ " TO " ++ target ++ " " ++ toString amount.toInt

end Transaction

end AgreedOrder.Bank
