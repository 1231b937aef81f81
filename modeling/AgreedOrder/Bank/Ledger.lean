/-
  AgreedOrder.Bank.Ledger

  The balances of the accounts. A transaction that is refused changes nothing.
  An account comes into being with the first money it is given.
-/

import AgreedOrder.Bank.Transaction

namespace AgreedOrder.Bank

/-- Why the ledger refuses a transaction. -/
inductive LedgerError
  | negativeAmount (amount : Int64)
  | unknownAccount (account : Account)
  | insufficientFunds (account : Account) (balance amount : Int64)
  | overflow (account : Account)
  deriving DecidableEq

/-- The words for a refusal. -/
def LedgerError.message : LedgerError → String
  | .negativeAmount amount =>
    "amount should be an integer greater or equal to zero, got " ++ toString amount.toInt
  | .unknownAccount account => "transfer failed, src account [" ++ account ++ "] does not exist"
  | .insufficientFunds account balance amount =>
    "transfer failed, src account [" ++ account ++ "] doesn't have enough funds, current amount ["
      ++ toString balance.toInt ++ "], need amount [" ++ toString amount.toInt ++ "]"
  | .overflow account => "balance of account [" ++ account ++ "] would overflow"

/-- The balance of each account. -/
structure Ledger where
  balances : SortedMap Account Int64

namespace Ledger

/-- The ledger with no account. -/
def empty : Ledger := ⟨∅⟩

instance : EmptyCollection Ledger := ⟨empty⟩

instance : Inhabited Ledger := ⟨empty⟩

/-- The balance of an account, if it exists. -/
def balance? (l : Ledger) (account : Account) : Option Int64 := l.balances.get? account

/-- Give an account a balance. -/
def set (l : Ledger) (account : Account) (amount : Int64) : Ledger :=
  ⟨l.balances.insert account amount⟩

/-- The sum of two amounts, if it is in range. -/
def add? (a b : Int64) : Option Int64 :=
  let sum := a.toInt + b.toInt
  if Int64.minValue.toInt ≤ sum ∧ sum ≤ Int64.maxValue.toInt then some (Int64.ofInt sum) else none

/-- What is left of a balance after an amount is taken, if the balance covers it. -/
def take? (balance amount : Int64) : Option Int64 :=
  let rest := balance.toInt - amount.toInt
  if 0 ≤ rest ∧ rest ≤ Int64.maxValue.toInt then some (Int64.ofInt rest) else none

/-- Put money into an account. Gives its new balance. -/
def deposit (l : Ledger) (account : Account) (amount : Int64) :
    Except LedgerError (Int64 × Ledger) :=
  if amount < 0 then .error (.negativeAmount amount)
  else
    match add? ((l.balance? account).getD 0) amount with
    | none => .error (.overflow account)
    | some sum => .ok (sum, l.set account sum)

/-- Move money between accounts. Moving it to the account it comes from changes nothing, if it is
    there. -/
def transfer (l : Ledger) (source target : Account) (amount : Int64) :
    Except LedgerError Ledger :=
  if amount < 0 then .error (.negativeAmount amount)
  else
    match l.balance? source with
    | none => .error (.unknownAccount source)
    | some balance =>
      match take? balance amount with
      | none => .error (.insufficientFunds source balance amount)
      | some rest =>
        -- The balance covers the amount, and it comes back to the account it left.
        if source = target then .ok l
        else
          match add? ((l.balance? target).getD 0) amount with
          | none => .error (.overflow target)
          | some sum => .ok ((l.set source rest).set target sum)

/-- Carry out a transaction. -/
def apply (l : Ledger) : Transaction → Except LedgerError Ledger
  | .deposit account amount => (l.deposit account amount).map (·.2)
  | .transfer source target amount => l.transfer source target amount

/-- Every balance on one line, in the order of the accounts. -/
def snapshotLine (l : Ledger) : String :=
  l.balances.entries.foldl
    (fun line e => line ++ " " ++ e.1 ++ ":" ++ toString e.2.toInt) "BALANCES"

end Ledger

end AgreedOrder.Bank
