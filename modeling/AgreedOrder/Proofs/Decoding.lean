/-
  AgreedOrder.Proofs.Decoding

  What nodes say to each other is decoded by its own fields, for every type of
  record: nodes that write the same fields are understood alike, whatever else
  their documents hold. Two things make a difference that are no fields: a name
  that is no text, and what stands on both sides of a document at once, which
  may make it a part of another one.

    * `records_read_by_fields` — the fields of every record.
    * `odd_name_refused` — where the rest of a document matters.
-/

import AgreedOrder.Proofs.Envelope

namespace AgreedOrder

open Json

/-! ## Layouts -/

theorem layout_handshake : Layout Handshake [("from", .text)] :=
  .of_one Handshake.mk rfl (fun _ => rfl) fun _ => rfl

theorem layout_frame : Layout Frame [("src", .text), ("path", .text), ("body", .body)] :=
  .of_three Frame.mk rfl (fun _ _ _ => rfl) fun _ _ _ => rfl

theorem layout_flood : Layout Flood [("id", .id), ("path", .text), ("body", .body)] :=
  .of_three Flood.mk rfl (fun _ _ _ => rfl) fun _ _ _ => rfl

theorem layout_message : Layout Message [("path", .text), ("body", .body)] :=
  .of_two Message.mk rfl (fun _ _ => rfl) fun _ _ => rfl

theorem layout_ask : Layout Ask [("src", .text), ("msg_id", .id), ("body", .body)] :=
  .of_three Ask.mk rfl (fun _ _ _ => rfl) fun _ _ _ => rfl

theorem layout_proposal :
    Layout Proposal [("process_id", .text), ("msg_id", .id), ("proposal_seq", .number)] :=
  .of_three Proposal.mk rfl (fun _ _ _ => rfl) fun _ _ _ => rfl

theorem layout_agreement :
    Layout Agreement [("process_id", .text), ("msg_id", .id), ("agreement_seq", .number)] :=
  .of_three Agreement.mk rfl (fun _ _ _ => rfl) fun _ _ _ => rfl

/-! ## Decoding -/

/-- Every record is decoded from an object by its own fields: just where each field has one member
    with a value of its kind, but for a body, which may be missing; alike in whatever order the
    members stand and whatever others there are; and with nothing but blanks around it. -/
theorem records_read_by_fields :
    ReadsFields Handshake [("from", .text)] ∧
      ReadsFields Frame [("src", .text), ("path", .text), ("body", .body)] ∧
      ReadsFields Flood [("id", .id), ("path", .text), ("body", .body)] ∧
      ReadsFields Message [("path", .text), ("body", .body)] ∧
      ReadsFields Ask [("src", .text), ("msg_id", .id), ("body", .body)] ∧
      ReadsFields Proposal [("process_id", .text), ("msg_id", .id), ("proposal_seq", .number)] ∧
      ReadsFields Agreement
        [("process_id", .text), ("msg_id", .id), ("agreement_seq", .number)] :=
  ⟨layout_handshake.readsFields, layout_frame.readsFields, layout_flood.readsFields,
    layout_message.readsFields, layout_ask.readsFields, layout_proposal.readsFields,
    layout_agreement.readsFields⟩

/-- A handshake, -/
def plainHandshake : Bytes := Bytes.ofText "\x7b\"from\":\"a\"\x7d"

/-- the same with one more member, whose name is half of a surrogate pair, -/
def oddHandshake : Bytes := Bytes.ofText "\x7b\"from\":\"a\",\"\\ud800\":0\x7d"

/-- and the same as a member of another handshake: what stands before it -/
def outerStart : Bytes := Bytes.ofText "\x7b\"from\":\"b\",\"x\":"

/-- and behind it. -/
def outerEnd : Bytes := Bytes.ofText "\x7d"

/-- A member that is no field makes a difference by its name, and so does what stands on both sides
    of a document. -/
theorem odd_name_refused :
    (Record.decode? plainHandshake : Option Handshake) = some ⟨"a"⟩ ∧
      IsObject plainHandshake [("from", .string (some "a"))] ∧
      Written oddHandshake
        (Value.object [(some "from", .string (some "a")), (none, .number (some 0))]).tokens ∧
      (Record.decode? oddHandshake : Option Handshake) = none ∧
      ¬Blanks outerStart ∧ ¬Blanks outerEnd ∧
      (Record.decode? (outerStart ++ (plainHandshake ++ outerEnd)) : Option Handshake)
        = some ⟨"b"⟩ := by
  have hplain : tokens? plainHandshake
      = some (Value.object [(some "from", .string (some "a"))]).tokens := by decide +kernel
  have hodd : tokens? oddHandshake = some
      (Value.object [(some "from", .string (some "a")), (none, .number (some 0))]).tokens := by
    decide +kernel
  have hstart : ¬Blanks outerStart := fun h => absurd (h 0x7B (by decide +kernel)) (by decide)
  have hend : ¬Blanks outerEnd := fun h => absurd (h 0x7D (by decide +kernel)) (by decide)
  exact ⟨by decide +kernel, written_of_tokens? hplain, written_of_tokens? hodd,
    by decide +kernel, hstart, hend, by decide +kernel⟩

end AgreedOrder
