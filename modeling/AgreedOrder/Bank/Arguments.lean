/-
  AgreedOrder.Bank.Arguments

  The command line of a node: its id, its port and the node table, and the
  options `--log` and `--retry-interval-ms`. An option's value stands after an
  equals sign or is the next argument that does not start with a hyphen; a
  hyphen alone does not count as one. After `--` every argument stands for
  itself.
-/

import AgreedOrder.Text.Digit

namespace AgreedOrder.Bank

/-- What a command line asks a node to do. -/
structure Arguments where
  nodeId : String
  port : UInt16
  tablePath : String
  logFilter : String
  retryInterval : Option UInt64
  deriving DecidableEq

/-- Why a command line is not carried out. -/
inductive ArgumentError
  | helpDisplayed
  | versionDisplayed
  | unknownArgument
  | missingRequired
  | emptyValue
  | invalidValue
  | repeatedOption
  deriving DecidableEq, Repr

namespace Arguments

/-- The options that take a value. -/
inductive OptionName
  | log
  | retryInterval
  deriving DecidableEq

/-- How often an option was given, and the values it was given. -/
structure OptionUse where
  count : Nat
  values : List String

/-- What the arguments so far amount to. -/
structure Scan where
  positionals : List String
  log : OptionUse
  retryInterval : OptionUse
  /-- The option whose value is to come. -/
  awaiting : Option OptionName
  /-- Whether `--` was read. -/
  onlyPositionals : Bool

/-- Nothing read yet. -/
def Scan.start : Scan := ⟨[], ⟨0, []⟩, ⟨0, []⟩, none, false⟩

/-- Change the use of an option. -/
def Scan.modify (s : Scan) (name : OptionName) (f : OptionUse → OptionUse) : Scan :=
  match name with
  | .log => { s with log := f s.log }
  | .retryInterval => { s with retryInterval := f s.retryInterval }

/-- Note an option that is given. -/
def Scan.countOption (s : Scan) (name : OptionName) : Scan :=
  s.modify name fun u => { u with count := u.count + 1 }

/-- Note a value of an option. -/
def Scan.addValue (s : Scan) (name : OptionName) (value : String) : Scan :=
  s.modify name fun u => { u with values := u.values ++ [value] }

/-- An argument that stands for itself. There are three of them. -/
def Scan.addPositional (s : Scan) (arg : String) : Except ArgumentError Scan :=
  if s.positionals.length < 3 then
    .ok { s with positionals := s.positionals ++ [arg], awaiting := none }
  else .error .unknownArgument

/-- An argument that starts with two hyphens. Further ones are dropped, as are equals signs in
    front of the value. -/
def Scan.addLong (s : Scan) (cs : List Char) : Except ArgumentError Scan :=
  let body := cs.dropWhile (· == '-')
  let name := String.ofList (body.takeWhile (· != '='))
  let value? :=
    match body.dropWhile (· != '=') with
    | [] => none
    | value => some (String.ofList (value.dropWhile (· == '=')))
  let use (option : OptionName) : Scan :=
    match value? with
    | some value => { (s.countOption option).addValue option value with awaiting := none }
    | none => { s.countOption option with awaiting := some option }
  if name = "log" then .ok (use .log)
  else if name = "retry-interval-ms" then .ok (use .retryInterval)
  else if name = "help" then .error .helpDisplayed
  else if name = "version" then .error .versionDisplayed
  else .error .unknownArgument

/-- An argument that starts with one hyphen. Its first letter decides. -/
def addShort (letter : Char) : ArgumentError :=
  if letter = 'h' then .helpDisplayed
  else if letter = 'V' then .versionDisplayed
  else .unknownArgument

/-- Read one argument. -/
def Scan.add (s : Scan) (arg : String) : Except ArgumentError Scan :=
  if s.onlyPositionals then s.addPositional arg
  else
    match arg.toList with
    -- What follows `--` stands for itself, and an option that awaits its value goes without.
    | ['-', '-'] => .ok { s with onlyPositionals := true }
    | '-' :: '-' :: cs => s.addLong cs
    | '-' :: letter :: _ => .error (addShort letter)
    -- Also a hyphen alone, and the empty argument.
    | _ =>
      match s.awaiting with
      | some option => .ok { s.addValue option arg with awaiting := none }
      | none => s.addPositional arg

/-- The log filter of a node that is given none. -/
def defaultLogFilter : String := "info"

/-- What the arguments amount to once all are read. -/
def Scan.finish (s : Scan) : Except ArgumentError Arguments :=
  match s.positionals with
  | [nodeId, port, tablePath] =>
    -- The filter has a default, so only the interval can lack its value.
    if 0 < s.retryInterval.count ∧ s.retryInterval.values = [] then .error .emptyValue
    else
      match Text.numeral? .u16 port with
      | none => .error .invalidValue
      | some port =>
        if s.retryInterval.values.any fun v => (Text.numeral? .u64 v).isNone then
          .error .invalidValue
        -- Values are looked at before it is noted that an option is repeated.
        else if 1 < s.log.count ∨ 1 < s.retryInterval.count then .error .repeatedOption
        else
          .ok {
            nodeId
            port := UInt16.ofNat port.toNat
            tablePath
            logFilter := s.log.values.headD defaultLogFilter
            retryInterval :=
              (s.retryInterval.values.head?.bind (Text.numeral? .u64 ·)).map fun n =>
                UInt64.ofNat n.toNat }
  | _ => .error .missingRequired

/-- Read a command line, without the name of the program. -/
def parse (args : List String) : Except ArgumentError Arguments := do
  (← args.foldlM Scan.add Scan.start).finish

end Arguments

end AgreedOrder.Bank
