/-
  AgreedOrder.Bank.Payload

  Transactions as they travel: a record with the name of the type and, as a
  text, a second record with the fields of that type.
-/

import AgreedOrder.Bank.Transaction
import AgreedOrder.Json.Record

namespace AgreedOrder.Bank

open Json

/-- The outer record: the name of the type, and the document of the inner record. -/
structure TypedDocument where
  typeName : String
  document : String
  deriving DecidableEq

/-- The inner record of a deposit. -/
structure DepositFields where
  account : Account
  amount : Int64
  deriving DecidableEq

/-- The inner record of a transfer. -/
structure TransferFields where
  source : Account
  target : Account
  amount : Int64
  deriving DecidableEq

instance : Record TypedDocument where
  names := ["type", "body"]
  write d := [.text d.typeName, .text d.document]
  read
    | [typeName, document] => do some ⟨← textField? typeName, ← textField? document⟩
    | _ => none

instance : Record DepositFields where
  names := ["account", "amount"]
  write d := [.text d.account, .whole d.amount.toInt]
  read
    | [account, amount] => do some ⟨← textField? account, ← signedField? amount⟩
    | _ => none

instance : Record TransferFields where
  names := ["from_account", "to_account", "amount"]
  write t := [.text t.source, .text t.target, .whole t.amount.toInt]
  read
    | [source, target, amount] => do
      some ⟨← textField? source, ← textField? target, ← signedField? amount⟩
    | _ => none

/-- Why bytes are no transaction. -/
inductive PayloadError
  /-- The outer or the inner record cannot be read. -/
  | unreadable
  /-- The outer record names another type. -/
  | unknownType (name : String)
  deriving DecidableEq

namespace Transaction

/-- The document of a transaction's own fields. -/
def fieldsDocument : Transaction → String
  | .deposit account amount => Record.encodeText (DepositFields.mk account amount)
  | .transfer source target amount => Record.encodeText (TransferFields.mk source target amount)

/-- The text of a transaction. -/
def encodeText (t : Transaction) : String :=
  Record.encodeText (TypedDocument.mk t.type.name t.fieldsDocument)

/-- The bytes of a transaction. -/
def encode (t : Transaction) : Bytes := Bytes.ofText t.encodeText

/-- The transaction of a type with these fields. -/
def ofDocument? (type : TransactionType) (document : Bytes) : Option Transaction :=
  match type with
  | .deposit => (Record.decode? document : Option DepositFields).map fun d =>
      .deposit d.account d.amount
  | .transfer => (Record.decode? document : Option TransferFields).map fun t =>
      .transfer t.source t.target t.amount

/-- The transaction of bytes. -/
def decode (b : Bytes) : Except PayloadError Transaction :=
  match (Record.decode? b : Option TypedDocument) with
  | none => .error .unreadable
  | some d =>
    match TransactionType.ofName? d.typeName with
    | none => .error (.unknownType d.typeName)
    | some type =>
      match ofDocument? type (Bytes.ofText d.document) with
      | none => .error .unreadable
      | some t => .ok t

end Transaction

end AgreedOrder.Bank
