/-
  AgreedOrder.Bank.Session

  A node from its command line to its end. It reads its arguments and the node
  table, joins the group once it has a link to every member, takes its input,
  and is interrupted when all it was told is done.
-/

import AgreedOrder.Bank.Arguments
import AgreedOrder.Bank.CommandInput
import AgreedOrder.Group.Network

namespace AgreedOrder.Bank

/-- How a session ended, and what each part of the node logged. A session that has not ended has
    no exit status. -/
structure Session where
  exit : Option Nat
  main : List LogLine
  input : List LogLine
  processor : List LogLine

namespace Session

/-- A session that ended before the node did anything. -/
def ended (status : Nat) (log : List LogLine) : Session := ⟨some status, log, [], []⟩

/-- A session in which the node still tries to reach the other members. -/
def waiting : Session := ⟨none, [], [], []⟩

/-- The exit status of a command line that is not carried out. -/
def refusalStatus : ArgumentError → Nat
  | .helpDisplayed => 0
  | .versionDisplayed => 0
  | _ => 1

/-- The session of a node that has its members. -/
def join (config : Config) (ids : IdSource) (dials : Node → Bool) (input : Bytes) : Session :=
  let members := config.membership
  if members.all dials then
    -- The members that are dialed are all this node, so it is a group of its own.
    let g : Group Replica :=
      .start (Replica.routes []) ids (fun _ _ => true) .init [.ofConfig config]
    let (report, g) := CommandInput.run config.self input g
    let g := g.flush.2
    let app := ((g.hosts.get? config.self).map (·.app)).getD .init
    { exit := some 0
      main := [
        ⟨.info, "node [" ++ config.self ++ "] joined a group of " ++ toString members.length⟩,
        ⟨.info, "interrupted, shutting down"⟩, ⟨.info, app.ledger.snapshotLine⟩]
      input := report.log
      processor := app.log }
  else waiting

/-- A session, given the node table if there is such a file, whether a node can be dialed, and the
    input. A table that no room can be set aside for ends the node without a word. -/
def run (args : List String) (table : String → Option Bytes) (dials : UInt16 → Node → Bool)
    (ids : IdSource) (input : Bytes) : Session :=
  match Arguments.parse args with
  | .error e => ended (refusalStatus e) []
  | .ok args =>
    match ((table args.tablePath).bind Bytes.toText?).map NodeTable.parse with
    | none => ended 1 [⟨.error, BankError.io.message⟩]
    | some (.fault f) => ended 1 [⟨.error, (BankError.table f).message⟩]
    | some (.noRoom _) => ended 101 []
    | some (.nodes members) =>
      let config := groupConfig args.nodeId args.port members
      let config :=
        match args.retryInterval with
        | some n => { config with dialRetryInterval := n.toNat }
        | none => config
      join config ids (dials args.port) input

/-- Whether an address is one that a node listening on a port is reached at from its own
    machine. -/
def reachesItself (port : UInt16) (n : Node) : Bool :=
  match n.address with
  | .v4 ip p => p = port ∧ (ip.a = 127 ∨ ip = .unspecified)
  | .v6 .. => false

end Session

end AgreedOrder.Bank
