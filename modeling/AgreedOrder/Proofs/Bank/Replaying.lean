/-
  AgreedOrder.Proofs.Bank.Replaying

  What the deliveries of the group do to a ledger. A delivery is a transaction
  if its message is one, on the path of its type; the ledger carries these out
  one after the other, and one that it refuses changes nothing.

    * `Ledger.replay` — a list of transactions, one after the other.
    * `transactionOf?` — the transaction in the body of a delivery.
    * `ledger_foldl_deliver` — deliveries are the transactions they hold.
-/

import AgreedOrder.Bank.Replica
import AgreedOrder.Group
import AgreedOrder.Proofs.Bank.Payload
import AgreedOrder.Proofs.SortedMap

namespace AgreedOrder

theorem Dispatcher.handler?_bind {η : Type} (d : Dispatcher String η) (key path : String)
    (handler : η) :
    (d.bind key handler).handler? path = if path = key then some handler else d.handler? path :=
  SortedMap.get?_insert_eq_ite ..

namespace Bank

open Json

/-! ## Ledgers -/

/-- Carry out a transaction. One that is refused changes nothing. -/
def Ledger.carry (l : Ledger) (t : Transaction) : Ledger :=
  match l.apply t with
  | .ok l => l
  | .error _ => l

/-- Carry out transactions one after the other. -/
def Ledger.replay (ts : List Transaction) : Ledger := ts.foldl Ledger.carry ∅

/-! ## Deliveries -/

/-- The message in which a transaction is sent. -/
def Transaction.message (t : Transaction) : Message := ⟨t.path, t.encode⟩

/-- The transaction in the body of a delivery. -/
def transactionOf? (body : Bytes) : Option Transaction :=
  (Record.decode? body : Option Message).bind fun m => (Processor.accept m.path m.body).toOption

/-- What was sent for a transaction holds it. -/
theorem transactionOf?_encode (t : Transaction) :
    transactionOf? (Record.encode t.message) = some t := by
  unfold transactionOf? Transaction.message
  rw [Record.decode?_encode, Option.bind_some]
  dsimp only
  rw [Processor.accept_encode]
  rfl

theorem TransactionType.mem_all (type : TransactionType) : type ∈ all := by
  cases type <;> decide

namespace Processor

variable {m : Message} {l : Ledger}

theorem handle_of_accept {t : Transaction} (h : accept m.path m.body = .ok t) :
    handle m l = l.carry t := by
  unfold handle process Ledger.carry
  rw [h]
  dsimp only [bind, Except.bind]
  cases l.apply t <;> rfl

theorem handle_of_reject {e : BankError} (h : accept m.path m.body = .error e) :
    handle m l = l := by
  unfold handle process
  rw [h]
  rfl

/-- Only what comes on the path of a transaction's type is accepted. -/
theorem mem_paths_of_accept {path : String} {body : Bytes} {t : Transaction}
    (h : accept path body = .ok t) : path ∈ TransactionType.all.map (·.path) := by
  unfold accept at h
  split at h
  · cases h
  · rename_i t' _
    split at h
    · rename_i hpath
      exact List.mem_map.2 ⟨t'.type, TransactionType.mem_all t'.type, hpath⟩
    · cases h

theorem handler?_register {σ : Type} (handler : Message → σ → σ)
    (d : Dispatcher String (Message → σ → σ)) (path : String) :
    (register handler d).handler? path =
      if path ∈ TransactionType.all.map (·.path) then some handler else d.handler? path := by
  show ((d.bind TransactionType.deposit.path handler).bind
    TransactionType.transfer.path handler).handler? path = _
  rw [Dispatcher.handler?_bind, Dispatcher.handler?_bind]
  show _ = if path ∈ [TransactionType.deposit.path, TransactionType.transfer.path] then _ else _
  simp only [List.mem_cons, List.not_mem_nil, or_false]
  split <;> split <;> simp_all

end Processor

/-- Messages on the paths of transactions are carried out, and no others. -/
theorem handler?_routes (path : String) : (Replica.routes []).handler? path =
    if path ∈ TransactionType.all.map (·.path) then some Replica.carryOut else none := by
  have hempty : (∅ : Dispatcher String (Message → Replica → Replica)).handler? path = none :=
    SortedMap.get?_empty path
  rw [← hempty]
  exact Processor.handler?_register Replica.carryOut ∅ path

/-- A delivery does to the ledger what the transaction in it does. -/
theorem ledger_deliver (r : Replica) (d : Delivery) :
    (Group.deliver (Replica.routes []) r d).ledger =
      match transactionOf? d.body with
      | some t => r.ledger.carry t
      | none => r.ledger := by
  unfold Group.deliver transactionOf?
  cases (Record.decode? d.body : Option Message) with
  | none => rfl
  | some m =>
    unfold Dispatcher.route
    dsimp only [Option.bind_some]
    rw [handler?_routes]
    cases haccept : Processor.accept m.path m.body with
    | ok t =>
      rw [if_pos (Processor.mem_paths_of_accept haccept)]
      exact Processor.handle_of_accept haccept
    -- A message that is no transaction changes nothing, whether there is a handler or not.
    | error e =>
      split
      · rename_i handler hsome
        split at hsome
        · cases hsome
          exact Processor.handle_of_reject haccept
        · cases hsome
      · rfl

theorem ledger_foldl_deliver (r : Replica) (ds : List Delivery) :
    (ds.foldl (Group.deliver (Replica.routes [])) r).ledger
      = (ds.filterMap fun d => transactionOf? d.body).foldl Ledger.carry r.ledger := by
  induction ds generalizing r with
  | nil => rfl
  | cons d ds ih =>
    rw [List.foldl_cons, ih, ledger_deliver, List.filterMap_cons]
    cases transactionOf? d.body with
    | none => rfl
    | some t => rfl

/-- The ledger of a replica that some deliveries were handed to. -/
theorem ledger_of_deliveries (ds : List Delivery) :
    (ds.foldl (Group.deliver (Replica.routes [])) .init).ledger
      = Ledger.replay (ds.filterMap fun d => transactionOf? d.body) :=
  ledger_foldl_deliver .init ds

end Bank

end AgreedOrder
