/-
  AgreedOrder.Main

  The command line of a node that is alone in its group. It reads transactions
  from standard input and logs what becomes of them.
-/

import AgreedOrder.Bank.Session

open AgreedOrder AgreedOrder.Bank

/-- The bytes of a file, if it can be read. -/
def readTable (path : String) : IO (Option Bytes) := do
  try
    return some (← IO.FS.readBinFile path).data.toList
  catch _ => return none

/-- Everything that stands on a stream. -/
partial def readStream (stream : IO.FS.Stream) (read : ByteArray) : IO ByteArray := do
  let chunk ← stream.read 65536
  if chunk.isEmpty then return read else readStream stream (read ++ chunk)

/-- Run a node with a link to itself alone. -/
def main (args : List String) : IO UInt32 := do
  let path :=
    match Arguments.parse args with
    | .ok a => a.tablePath
    | .error _ => ""
  let table ← if path.isEmpty then pure none else readTable path
  let input ← readStream (← IO.getStdin) ByteArray.empty
  let start : MessageId := ⟨BitVec.ofNat 128 (← IO.rand 1 0x3FFFFFFFFFFFFFFF)⟩
  let session :=
    Session.run args (fun _ => table) Session.reachesItself ⟨start, 0⟩ input.data.toList
  let log (part : String) (lines : List LogLine) : IO Unit :=
    lines.forM fun l => IO.eprintln ("[" ++ l.level.name ++ " " ++ part ++ "] " ++ l.text)
  log "input" session.input
  log "processor" session.processor
  log "main" session.main
  return (session.exit.getD 1).toUInt32
