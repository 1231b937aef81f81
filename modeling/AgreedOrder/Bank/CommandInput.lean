/-
  AgreedOrder.Bank.CommandInput

  Commands as they are read from an input: one to a line. Blank lines are
  passed over, a line that is no command is reported and passed over, and a
  line that is no text ends the input with an error.
-/

import AgreedOrder.Bank.BankError
import AgreedOrder.Bank.Processor
import AgreedOrder.Bank.Replica
import AgreedOrder.Group.Sending

namespace AgreedOrder.Bank

/-- What a line of input comes to. -/
inductive InputLine
  | transaction (t : Transaction)
  | malformed (e : BankError)
  | notText
  deriving DecidableEq

namespace CommandInput

/-- The bytes of each line. A line ends at a line feed, with or without a carriage return before
    it; the last one needs no end. -/
def lines (input : Bytes) : List Bytes :=
  let pieces := Text.splitWhere (· == 0x0A) input
  let ended := pieces.dropLast.map fun b => if b.getLast? = some 0x0D then b.dropLast else b
  -- What follows the last line feed is a line unless it is nothing, and keeps its carriage return.
  match pieces.getLast? with
  | some (b :: rest) => ended ++ [b :: rest]
  | _ => ended

/-- What a line comes to; nothing if it is blank. -/
def read (line : Bytes) : Option InputLine :=
  match line.toText? with
  | none => some .notText
  | some s =>
    if Text.isAllBlank s then none
    else
      match Command.parse s with
      | .ok t => some (.transaction t)
      | .error f => some (.malformed (.command s f))

/-- What an input comes to, up to a line that is no text. -/
def events (input : Bytes) : List InputLine :=
  let all := (lines input).filterMap read
  all.takeWhile (· != .notText) ++ (all.filter (· == .notText)).take 1

/-- What became of an input: how many transactions were submitted, what was logged, and the error
    that ended it, if one did. -/
structure Report where
  submitted : Nat
  log : List LogLine
  error : Option BankError

/-- The report on an input that ended. -/
def Report.conclude (r : Report) : Report :=
  match r.error with
  | some _ => r
  | none =>
    { r with log := r.log ++
        [⟨.info, "input reach EOF after " ++ toString r.submitted ++ " transactions"⟩] }

/-- Let a node of a group take one line. -/
def take (node : NodeId) (state : Report × Group Replica) (line : InputLine) :
    Report × Group Replica :=
  let (report, g) := state
  match report.error, line with
  | some _, _ => state
  | none, .notText => ({ report with error := some .io }, g)
  | none, .malformed e =>
    ({ report with
        log := report.log ++
          [⟨.warn, "encode input msg failed with err: " ++ e.message ++ ", skip"⟩] }, g)
  | none, .transaction t =>
    match g.submit node ⟨t.path, t.encode⟩ false with
    | (.ok _, g) => ({ report with submitted := report.submitted + 1 }, g)
    | (.error (.failed e), g) => ({ report with error := some (.group e) }, g)
    | (.error _, g) => (report, g)

/-- Let a node of a group take a whole input. -/
def run (node : NodeId) (input : Bytes) (g : Group Replica) : Report × Group Replica :=
  let (report, g) := (events input).foldl (take node) (⟨0, [], none⟩, g)
  (report.conclude, g)

end CommandInput

end AgreedOrder.Bank
