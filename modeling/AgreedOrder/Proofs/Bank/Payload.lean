/-
  AgreedOrder.Proofs.Bank.Payload

  A transaction is read back as it was written: the name of its type leads to
  that type, and the inner record holds its fields.

    * `Transaction.decode_encode` — both records, one inside the other.
    * `Transaction.ofDocument?_other` — the inner record is one of its own type only.
    * `payload_read_back` — all of it, for every transaction.
    * `Processor.accept_encode` — on the path of its type, it is carried out.
-/

import AgreedOrder.Bank.Processor
import AgreedOrder.Proofs.Envelope

namespace AgreedOrder

/-- The signed number of a field is read as it was written. -/
@[simp] theorem Json.signedField?_whole (n : Int64) :
    signedField? (some (Scalar.whole n.toInt).value) = some n := by
  have hrange : (-9223372036854775808 : Int) ≤ n.toInt ∧ n.toInt ≤ 9223372036854775807 :=
    ⟨n.le_toInt, n.toInt_le⟩
  have hwhole : wholeField? .i64 (some (Scalar.whole n.toInt).value) = some n.toInt :=
    if_pos hrange
  unfold signedField?
  rw [hwhole, Option.map_some, Int64.ofInt_toInt]

namespace Bank

open Json

instance : LawfulRecord TypedDocument where
  nodup_names := by decide
  length_write _ := rfl
  read_write d := by simp [Record.read, Record.write]

instance : LawfulRecord DepositFields where
  nodup_names := by decide
  length_write _ := rfl
  read_write d := by simp [Record.read, Record.write]

instance : LawfulRecord TransferFields where
  nodup_names := by decide
  length_write _ := rfl
  read_write t := by simp [Record.read, Record.write]

theorem TransactionType.ofName?_name (type : TransactionType) : ofName? type.name = some type := by
  cases type <;> decide

namespace Transaction

/-- The inner record holds the fields of a transaction. -/
theorem ofDocument?_fieldsDocument (t : Transaction) :
    ofDocument? t.type (Bytes.ofText t.fieldsDocument) = some t := by
  cases t with
  | deposit account amount =>
    exact congrArg (Option.map _) (Record.decode?_encode (DepositFields.mk account amount))
  | transfer source target amount =>
    exact congrArg (Option.map _) (Record.decode?_encode (TransferFields.mk source target amount))

/-- The fields of one type are not those of the other. -/
theorem ofDocument?_other {t : Transaction} {type : TransactionType} (h : type ≠ t.type) :
    ofDocument? type (Bytes.ofText t.fieldsDocument) = none := by
  cases t with
  | deposit account amount =>
    cases type with
    | deposit => exact absurd rfl h
    | transfer =>
      have hread := Record.decode?_encode_eq (β := TransferFields) (DepositFields.mk account amount)
      exact congrArg (Option.map _) hread
  | transfer source target amount =>
    cases type with
    | deposit =>
      have hread := Record.decode?_encode_eq (β := DepositFields)
        (TransferFields.mk source target amount)
      exact congrArg (Option.map _) hread
    | transfer => exact absurd rfl h

/-- The outer record names the type, and holds the inner one as a text. -/
theorem decode?_encode_outer (t : Transaction) :
    (Record.decode? t.encode : Option TypedDocument) = some ⟨t.type.name, t.fieldsDocument⟩ :=
  Record.decode?_encode _

theorem decode_encode (t : Transaction) : decode t.encode = .ok t := by
  unfold decode
  rw [decode?_encode_outer]
  dsimp only
  rw [TransactionType.ofName?_name]
  dsimp only
  rw [ofDocument?_fieldsDocument]

end Transaction

/-- Every transaction is read back as it was written, whatever its accounts are called and whatever
    its amount. Its outer record gives the name of its type and the text of its inner record, and
    of the types only its own reads that text. -/
theorem payload_read_back (t : Transaction) :
    Transaction.decode t.encode = .ok t ∧
    (Record.decode? t.encode : Option TypedDocument) = some ⟨t.type.name, t.fieldsDocument⟩ ∧
    ∀ type, Transaction.ofDocument? type (Bytes.ofText t.fieldsDocument)
      = if type = t.type then some t else none := by
  refine ⟨t.decode_encode, t.decode?_encode_outer, ?_⟩
  intro type
  split
  · rename_i htype
    rw [htype]
    exact t.ofDocument?_fieldsDocument
  · rename_i htype
    exact Transaction.ofDocument?_other htype

example : (Transaction.deposit "a" 10).encodeText
    = "\x7b\"type\":\"deposit\",\"body\":\"\x7b\\\"account\\\":\\\"a\\\","
      ++ "\\\"amount\\\":10\x7d\"\x7d" := by
  decide +kernel

/-- A transaction that comes on the path of its type is accepted. -/
theorem Processor.accept_encode (t : Transaction) : accept t.path t.encode = .ok t := by
  unfold accept
  rw [Transaction.decode_encode]
  exact if_pos rfl

end Bank

end AgreedOrder
