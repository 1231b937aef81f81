/-
  AgreedOrder.Proofs.Envelope

  Everything that nodes say to each other can be read back: the fields of each
  record have different names, and each field is read as it was written. Levels
  that stand in each other's bodies are read back one after the other.

    * `envelopes_faithful` — every record stands on one line and is read back,
      alone and nested.
-/

import AgreedOrder.Envelope
import AgreedOrder.Proofs.Json.Fields
import AgreedOrder.Proofs.Json.Printable

namespace AgreedOrder

open Json

/-! ## Records -/

instance : LawfulRecord Handshake where
  nodup_names := by decide
  length_write _ := rfl
  read_write h := by simp [Record.read, Record.write]

instance : LawfulRecord Frame where
  nodup_names := by decide
  length_write _ := rfl
  read_write f := by simp [Record.read, Record.write]

instance : LawfulRecord Flood where
  nodup_names := by decide
  length_write _ := rfl
  read_write f := by simp [Record.read, Record.write]

instance : LawfulRecord Message where
  nodup_names := by decide
  length_write _ := rfl
  read_write m := by simp [Record.read, Record.write]

instance : LawfulRecord Ask where
  nodup_names := by decide
  length_write _ := rfl
  read_write a := by simp [Record.read, Record.write]

instance : LawfulRecord Proposal where
  nodup_names := by decide
  length_write _ := rfl
  read_write p := by simp [Record.read, Record.write]

instance : LawfulRecord Agreement where
  nodup_names := by decide
  length_write _ := rfl
  read_write a := by simp [Record.read, Record.write]

/-! ## Faithfulness -/

/-- A type whose values are written without control characters, and read back as they were. -/
def Faithful (α : Type) [Record α] : Prop :=
  ∀ a : α, Printable (Record.encodeText a).toList ∧
    (Record.decode? (Record.encode a) : Option α) = some a

theorem faithful (α : Type) [Record α] [LawfulRecord α] : Faithful α :=
  fun a => ⟨Record.printable_encodeText a, Record.decode?_encode a⟩

/-- The levels of an ask on the wire: each is decoded from the body of the one before. -/
def levels? (document : Bytes) : Option (Frame × Flood × Ask × Message) := do
  let frame ← Record.decode? document
  let flood ← Record.decode? frame.body
  let ask ← Record.decode? flood.body
  let message ← Record.decode? ask.body
  some (frame, flood, ask, message)

/-- Every envelope stands on one line and is read back as it was, whatever its fields hold; and so
    is a message inside an ask inside a flooded envelope inside a frame. -/
theorem envelopes_faithful :
    Faithful Handshake ∧ Faithful Frame ∧ Faithful Flood ∧ Faithful Message ∧ Faithful Ask ∧
      Faithful Proposal ∧ Faithful Agreement ∧
      ∀ (message : Message) (asker : NodeId) (id : MessageId) (floodId : MessageId)
        (floodPath : String) (sender : NodeId) (path : String),
        let ask : Ask := ⟨asker, id, Record.encode message⟩
        let flood : Flood := ⟨floodId, floodPath, Record.encode ask⟩
        let frame : Frame := ⟨sender, path, Record.encode flood⟩
        levels? (Record.encode frame) = some (frame, flood, ask, message) := by
  refine ⟨faithful _, faithful _, faithful _, faithful _, faithful _, faithful _, faithful _, ?_⟩
  intro message asker id floodId floodPath sender path
  -- Each level is decoded where the one around it has given its body back.
  simp only [levels?, Record.decode?_encode, Option.bind_eq_bind, Option.bind_some]

end AgreedOrder
