/-
  AgreedOrder.Proofs.Bank.Processing

  A delivered message carries out at most one transaction: the one its body
  holds, and only on the path of that transaction's type. A message is also
  processed in place, stage by stage, where whatever stops it leaves the ledger
  as it is by then; no stage before the ledger writes to it.

    * `Dispatcher.Every` — what holds of every handler that is bound.
    * `InPlace.process`, `InPlace.attempt` — the stages, and what they leave.
    * `InPlace.attempt_eq` — in place, processing is the same.
    * `carries_at_most_one` — a message through a dispatcher with other handlers.
-/

import AgreedOrder.Proofs.Bank.Conservation

namespace AgreedOrder

/-! ## Dispatchers -/

namespace Dispatcher

variable {η : Type}

/-- Whatever handler is bound has a property. -/
def Every (P : η → Prop) (d : Dispatcher String η) : Prop :=
  ∀ path handler, d.handler? path = some handler → P handler

/-- Bind handlers one after the other. -/
def bindAll (d : Dispatcher String η) (bindings : List (String × η)) : Dispatcher String η :=
  bindings.foldl (fun d b => d.bind b.1 b.2) d

variable {P : η → Prop} {d : Dispatcher String η}

theorem route_of_handler {μ σ : Type} {d : Dispatcher String (μ → σ → σ)} {path : μ → String}
    {handler : μ → σ → σ} {m : μ} (h : d.handler? (path m) = some handler) (s : σ) :
    d.route path m s = (true, handler m s) := by
  unfold route
  rw [h]

theorem every_empty : (∅ : Dispatcher String η).Every P := by
  intro path handler h
  cases (SortedMap.get?_empty path).symm.trans h

theorem Every.bind (h : d.Every P) {key : String} {handler : η} (hhandler : P handler) :
    (d.bind key handler).Every P := by
  intro path other hother
  rw [handler?_bind] at hother
  split at hother
  · cases hother
    exact hhandler
  · exact h path other hother

theorem Every.bindAll (h : d.Every P) {bindings : List (String × η)}
    (hbindings : ∀ b ∈ bindings, P b.2) : (d.bindAll bindings).Every P := by
  induction bindings generalizing d with
  | nil => exact h
  | cons b bindings ih =>
    exact ih (h.bind (hbindings b List.mem_cons_self))
      fun other hother => hbindings other (List.mem_cons_of_mem b hother)

theorem handler?_bindAll {bindings : List (String × η)} {path : String}
    (h : path ∉ bindings.map (·.1)) : (d.bindAll bindings).handler? path = d.handler? path := by
  induction bindings generalizing d with
  | nil => rfl
  | cons b bindings ih =>
    rw [List.map_cons, List.mem_cons, not_or] at h
    show ((d.bind b.1 b.2).bindAll bindings).handler? path = _
    rw [ih h.2, handler?_bind, if_neg h.1]

end Dispatcher

namespace Bank

namespace Processor

variable {σ : Type} {d : Dispatcher String (Message → σ → σ)} {handler : Message → σ → σ}

theorem every_register {P : (Message → σ → σ) → Prop} (h : d.Every P) (hhandler : P handler) :
    (register handler d).Every P := by
  intro path other hother
  rw [handler?_register] at hother
  split at hother
  · cases hother
    exact hhandler
  · exact h path other hother

end Processor

/-! ## Stages -/

namespace InPlace

/-- Process a message stage by stage: read the transaction, compare the path with its type, and
    write to the ledger. -/
def process (path : String) (body : Bytes) : ExceptT BankError (StateM Ledger) Unit := do
  let t ← ExceptT.adapt BankError.ofPayload (liftExcept (Transaction.decode body))
  if t.path ≠ path then throw (.pathMismatch t.type path)
  else ExceptT.adapt BankError.refused (statements t)

/-- Process a message on a ledger. Gives what became of it and the ledger that is left. -/
def attempt (path : String) (body : Bytes) (l : Ledger) : Except BankError Unit × Ledger :=
  (process path body).run.run l

variable {path : String} {body : Bytes} {t : Transaction}

theorem attempt_of_unreadable {e : PayloadError} (h : Transaction.decode body = .error e)
    (path : String) (l : Ledger) : attempt path body l = (.error (.ofPayload e), l) := by
  unfold attempt process
  rw [h]
  rfl

theorem attempt_of_decode (h : Transaction.decode body = .ok t) (path : String) (l : Ledger) :
    attempt path body l =
      if t.path ≠ path then (.error (.pathMismatch t.type path), l)
      else ((perform (statements t) l).1.mapError BankError.refused,
        (perform (statements t) l).2) := by
  unfold attempt process
  rw [h]
  show ExceptT.run (if t.path ≠ path then throw (BankError.pathMismatch t.type path)
    else ExceptT.adapt BankError.refused (statements t) : ExceptT BankError (StateM Ledger) Unit) l
      = _
  split <;> rfl

theorem attempt_of_mismatch (h : Transaction.decode body = .ok t) (hpath : t.path ≠ path)
    (l : Ledger) : attempt path body l = (.error (.pathMismatch t.type path), l) :=
  (attempt_of_decode h path l).trans (if_pos hpath)

/-- On the path of its type, a transaction comes to what it comes to on the ledger. -/
theorem attempt_of_match (h : Transaction.decode body = .ok t) (hpath : t.path = path)
    (l : Ledger) : attempt path body l =
      ((perform (statements t) l).1.mapError BankError.refused, (perform (statements t) l).2) :=
  (attempt_of_decode h path l).trans (if_neg (not_not_intro hpath))

/-- In place, processing comes to the same, and whatever stops it has written nothing. -/
theorem attempt_eq (path : String) (body : Bytes) (l : Ledger) : attempt path body l =
    match Processor.process path body l with
    | .ok l' => (.ok (), l')
    | .error e => (.error e, l) := by
  unfold Processor.process Processor.accept
  cases hdecode : Transaction.decode body with
  | error e => exact attempt_of_unreadable hdecode path l
  | ok t =>
    dsimp only
    by_cases hpath : t.path = path
    · rw [attempt_of_match hdecode hpath, if_pos hpath, perform_statements]
      dsimp only [bind, Except.bind]
      cases l.apply t <;> rfl
    · rw [attempt_of_mismatch hdecode hpath, if_neg hpath]
      rfl

theorem handle_eq_attempt (m : Message) (l : Ledger) :
    Processor.handle m l = (attempt m.path m.body l).2 := by
  rw [attempt_eq]
  unfold Processor.handle
  cases Processor.process m.path m.body l <;> rfl

end InPlace

/-! ## Deliveries -/

/-- A message carries out the transaction that its body holds, or nothing. -/
theorem handle_cases (m : Message) (l : Ledger) :
    (∃ t, Transaction.decode m.body = .ok t ∧ t.path = m.path ∧
      Processor.handle m l = (InPlace.perform (InPlace.statements t) l).2) ∨
      Processor.handle m l = l := by
  rw [InPlace.handle_eq_attempt]
  cases hdecode : Transaction.decode m.body with
  | error e =>
    rw [InPlace.attempt_of_unreadable hdecode]
    exact .inr rfl
  | ok t =>
    by_cases hpath : t.path = m.path
    · rw [InPlace.attempt_of_match hdecode hpath]
      exact .inl ⟨t, rfl, hpath, rfl⟩
    · rw [InPlace.attempt_of_mismatch hdecode hpath]
      exact .inr rfl

theorem TransactionType.path_inj {type other : TransactionType} (h : type.path = other.path) :
    type = other := by
  cases type <;> cases other <;> simp_all [TransactionType.path]

section Routing

variable {σ : Type}

/-- What a handler does to a ledger is what the processor does. -/
def Carries (ledger : σ → Ledger) (handler : Message → σ → σ) : Prop :=
  ∀ m s, ledger (handler m s) = Processor.handle m (ledger s)

/-- A handler leaves a ledger alone. -/
def Spares (ledger : σ → Ledger) (handler : Message → σ → σ) : Prop :=
  ∀ m s, ledger (handler m s) = ledger s

/-- The handlers of a node: those that were bound before its processor was registered, the
    processor's, and those that were bound later. -/
def nodeRoutes (before : Dispatcher String (Message → σ → σ)) (handler : Message → σ → σ)
    (later : List (String × (Message → σ → σ))) : Dispatcher String (Message → σ → σ) :=
  (Processor.register handler before).bindAll later

variable {ledger : σ → Ledger} {before : Dispatcher String (Message → σ → σ)}
  {handler : Message → σ → σ} {later : List (String × (Message → σ → σ))}

theorem every_nodeRoutes (hcarries : Carries ledger handler)
    (hbefore : before.Every (Spares ledger)) (hlater : ∀ b ∈ later, Spares ledger b.2) :
    (nodeRoutes before handler later).Every fun h => Carries ledger h ∨ Spares ledger h :=
  (Processor.every_register (fun path h hh => .inr (hbefore path h hh)) (.inl hcarries)).bindAll
    fun b hb => .inr (hlater b hb)

/-- Through a dispatcher on which the processor is registered, next to handlers that leave the
    ledger alone, a message carries out the transaction in its body, on the path of that
    transaction's type, or it leaves the ledger as it was. A transaction comes through on its
    path, unless another handler was bound to it since: what becomes of it is what becomes of it
    on the ledger. On the other path it is refused, and nothing was written by then. -/
theorem carries_at_most_one (hcarries : Carries ledger handler)
    (hbefore : before.Every (Spares ledger)) (hlater : ∀ b ∈ later, Spares ledger b.2) :
    (∀ m s, let after := ledger ((nodeRoutes before handler later).route Message.path m s).2
      (∃ t, Transaction.decode m.body = .ok t ∧ t.path = m.path ∧
        after = (InPlace.perform (InPlace.statements t) (ledger s)).2) ∨ after = ledger s) ∧
    (∀ t s, t.path ∉ later.map (·.1) →
      ledger ((nodeRoutes before handler later).route Message.path t.message s).2
        = (InPlace.perform (InPlace.statements t) (ledger s)).2) ∧
    ∀ t l,
      InPlace.attempt t.path t.encode l
        = ((InPlace.perform (InPlace.statements t) l).1.mapError BankError.refused,
          (InPlace.perform (InPlace.statements t) l).2) ∧
      ∀ type : TransactionType, type ≠ t.type →
        InPlace.attempt type.path t.encode l = (.error (.pathMismatch t.type type.path), l) := by
  refine ⟨fun m s => ?_, fun t s hfree => ?_, fun t l => ⟨?_, fun type htype => ?_⟩⟩
  · dsimp only
    unfold Dispatcher.route
    split
    · rename_i h hfound
      rcases every_nodeRoutes hcarries hbefore hlater _ h hfound with hcarry | hspare
      · rw [hcarry m s]
        exact handle_cases m (ledger s)
      · exact .inr (hspare m s)
    · exact .inr rfl
  · have hfound : (nodeRoutes before handler later).handler? t.path = some handler := by
      unfold nodeRoutes
      rw [Dispatcher.handler?_bindAll hfree, Processor.handler?_register]
      exact if_pos (List.mem_map.2 ⟨t.type, TransactionType.mem_all t.type, rfl⟩)
    have hdecode : Transaction.decode t.message.body = .ok t := by
      simp only [Transaction.message, Transaction.decode_encode]
    have hpath : t.path = t.message.path := rfl
    rw [Dispatcher.route_of_handler (m := t.message) hfound, hcarries, InPlace.handle_eq_attempt,
      InPlace.attempt_of_match hdecode hpath]
  · exact InPlace.attempt_of_match (Transaction.decode_encode t) rfl l
  · exact InPlace.attempt_of_mismatch (Transaction.decode_encode t)
      (fun hpath => htype (TransactionType.path_inj hpath).symm) l

end Routing

/-- A replica's processor between two handlers that watch. -/
theorem carries_at_most_one_between_watchers :
    let before : Dispatcher String (Message → Replica → Replica) :=
      (∅ : Dispatcher String (Message → Replica → Replica)).bind "/snapshot" Replica.watch
    let later := [("/audit", Replica.watch)]
    let t : Transaction := .deposit "a" 5
    Carries Replica.ledger Replica.carryOut ∧ before.Every (Spares Replica.ledger) ∧
    (∀ b ∈ later, Spares Replica.ledger b.2) ∧ t.path ∉ later.map (·.1) ∧
    ((nodeRoutes before Replica.carryOut later).route Message.path t.message
      .init).2.ledger.balance? "a" = some 5 ∧
    InPlace.attempt TransactionType.transfer.path t.encode ∅
      = (.error (.pathMismatch .deposit "/transaction/transfer"), ∅) := by
  intro before later t
  have hcarries : Carries Replica.ledger Replica.carryOut := fun _ _ => rfl
  have hwatch : Spares Replica.ledger Replica.watch := fun _ _ => rfl
  have hbefore : before.Every (Spares Replica.ledger) := Dispatcher.every_empty.bind hwatch
  have hlater : ∀ b ∈ later, Spares Replica.ledger b.2 := fun b hb => by
    cases List.mem_singleton.1 hb
    exact hwatch
  have hfree : t.path ∉ later.map (·.1) := by decide
  obtain ⟨-, hrouted, hprocessed⟩ := carries_at_most_one hcarries hbefore hlater
  refine ⟨hcarries, hbefore, hlater, hfree, ?_, (hprocessed t ∅).2 .transfer (by decide)⟩
  have happly : Replica.init.ledger.apply t = .ok ((∅ : Ledger).set "a" 5) := rfl
  rw [hrouted t .init hfree, InPlace.perform_statements, happly]
  exact (Ledger.balance?_set ..).trans (if_pos rfl)

end Bank

end AgreedOrder
