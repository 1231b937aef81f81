/-
  AgreedOrder.Bank.Command

  Commands as they are typed, one to a line:

    DEPOSIT <account> <amount>
    TRANSFER <from> TO <to> <amount>

  The fields stand between blanks of any kind and number.
-/

import AgreedOrder.Bank.Transaction
import AgreedOrder.Text.Blank
import AgreedOrder.Text.Digit

namespace AgreedOrder.Bank

/-- What is wrong with a line that is no command. -/
inductive CommandFault
  | noFields
  | depositShape
  | transferShape
  | unknownVerb
  | badAmount (field : String) (e : Text.NumeralError)
  deriving DecidableEq

/-- The words for a fault. -/
def CommandFault.message : CommandFault → String
  | .noFields => "empty fields"
  | .depositShape => "expected DEPOSIT <account> <amount>"
  | .transferShape => "expected TRANSFER <from> TO <to> <amount>"
  | .unknownVerb => "unrecognized event type"
  | .badAmount field e => "bad amount [" ++ field ++ "]: " ++ e.message

namespace Command

/-- The amount of a field. -/
def amount (field : String) : Except CommandFault Int64 :=
  match Text.numeral .i64 field.toList with
  | .ok n => .ok (Int64.ofInt n)
  | .error e => .error (.badAmount field e)

/-- The transaction of a line's fields. -/
def ofFields : List String → Except CommandFault Transaction
  | [] => .error .noFields
  | ["DEPOSIT", account, n] => (amount n).map (.deposit account)
  | "DEPOSIT" :: _ => .error .depositShape
  | ["TRANSFER", source, "TO", target, n] => (amount n).map (.transfer source target)
  | "TRANSFER" :: _ => .error .transferShape
  | _ => .error .unknownVerb

/-- The transaction of a line. -/
def parse (line : String) : Except CommandFault Transaction := ofFields (Text.fields line)

end Command

end AgreedOrder.Bank
