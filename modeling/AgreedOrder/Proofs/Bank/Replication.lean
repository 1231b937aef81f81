/-
  AgreedOrder.Proofs.Bank.Replication

  A bank kept by several nodes that do not crash. Each node reads commands
  from its input and submits their transactions to the group, and carries out
  what the group delivers. At any time the ledgers of two nodes differ only by
  what one of them has still to carry out; and once nothing is on its way,
  every ledger is that of a single bank that carried out all transactions one
  after the other.

    * `Cluster`, `Step`, `Reachable` — the nodes and what can happen.
    * `Kept` — what holds in every run.
    * `Reachable.exists_quiet` — every bank can come to rest.
    * `ledgers_converge` — one bank, kept many times.
-/

import AgreedOrder.Bank.CommandInput
import AgreedOrder.Proofs.Bank.Replaying
import AgreedOrder.Proofs.Stack.Rest
import Mathlib.Data.List.Permutation

namespace AgreedOrder.Bank

open Json
open Protocol (Roster)

/-! ## Nodes -/

/-- The transaction of a line of input, if it is a command. -/
def InputLine.transaction? : InputLine → Option Transaction
  | .transaction t => some t
  | _ => none

/-- The nodes of a bank: the group they form, their applications, and what each of them has still
    to read of its input. The transactions that were submitted are recorded with their nodes. -/
structure Cluster where
  stack : Stack.State
  replicas : NodeId → Replica
  unread : NodeId → List InputLine
  submitted : List (NodeId × Transaction)

namespace Cluster

/-- A bank before anything is read. -/
def init (g : Roster) (inputs : NodeId → Bytes) : Cluster :=
  { stack := Stack.State.init g
    replicas := fun _ => Replica.init
    unread := fun p => CommandInput.events (inputs p)
    submitted := [] }

/-- A node reads a line that is no command. -/
def skip (c : Cluster) (p : NodeId) (rest : List InputLine) : Cluster :=
  { c with unread := Function.update c.unread p rest }

/-- A node reads a command, and submits its transaction. -/
def submit (c : Cluster) (p : NodeId) (t : Transaction) (rest : List InputLine)
    (id floodId : MessageId) (targets : List NodeId) : Cluster :=
  { c with
    stack := c.stack.submit p id floodId t.message targets
    unread := Function.update c.unread p rest
    submitted := c.submitted ++ [(p, t)] }

/-- A node carries out a delivery. -/
def handOver (c : Cluster) (p : NodeId) (d : Delivery) (rest : List Delivery) : Cluster :=
  { c with
    stack := c.stack.handOver p d rest
    replicas := Function.update c.replicas p
      (Group.deliver (Replica.routes []) (c.replicas p) d) }

end Cluster

/-- What can happen to a bank. -/
inductive Step (g : Roster) : Cluster → Cluster → Prop
  | skip {c : Cluster} {p : NodeId} {e : BankError} {rest : List InputLine}
      (next : c.unread p = .malformed e :: rest) : Step g c (c.skip p rest)
  | submit {c : Cluster} {p : NodeId} {t : Transaction} {rest : List InputLine}
      {id floodId : MessageId} {targets : List NodeId} (member : p ∈ g.ids)
      (next : c.unread p = .transaction t :: rest) (fresh : ∀ x ∈ c.stack.sent, x.1 ≠ id)
      (freshFlood : ∀ x ∈ c.stack.net.issued, x.2.id ≠ floodId)
      (order : targets.Perm (c.stack.net.members p).peers.liveIds) :
      Step g c (c.submit p t rest id floodId targets)
  | move {c : Cluster} {s : Stack.State} (next : Stack.Move g c.stack s) :
      Step g c { c with stack := s }
  | handOver {c : Cluster} {p : NodeId} {d : Delivery} {rest : List Delivery}
      (oldest : (c.stack.net.members p).released = d :: rest) : Step g c (c.handOver p d rest)

/-- What a bank can come to when its nodes are given these inputs. -/
inductive Reachable (g : Roster) (inputs : NodeId → Bytes) : Cluster → Prop
  | init : Reachable g inputs (Cluster.init g inputs)
  | step {c c' : Cluster} (reachable : Reachable g inputs c) (next : Step g c c') :
      Reachable g inputs c'

/-! ## What holds in every run -/

variable {g : Roster} {inputs : NodeId → Bytes} {c c' : Cluster} {p q : NodeId}

/-- The transactions that a node has submitted, the first one first. -/
def Cluster.submittedBy (c : Cluster) (p : NodeId) : List Transaction :=
  (c.submitted.filter (·.1 = p)).map (·.2)

theorem submittedBy_submit (c : Cluster) (t : Transaction) (rest : List InputLine)
    (id floodId : MessageId) (targets : List NodeId) :
    (c.submit p t rest id floodId targets).submittedBy q
      = c.submittedBy q ++ if q = p then [t] else [] := by
  show ((c.submitted ++ [(p, t)]).filter (·.1 = q)).map (·.2) = _
  rw [List.filter_append, List.map_append, Cluster.submittedBy, List.append_cancel_left_eq,
    List.filter_singleton]
  by_cases hq : q = p
  · rw [if_pos hq, decide_eq_true hq.symm]
    rfl
  · rw [if_neg hq, decide_eq_false fun heq => hq heq.symm]
    rfl

/-- Every replica has carried out what was handed to it; what was sent are the transactions that
    were submitted, and these are the commands that were read. -/
structure Kept (g : Roster) (inputs : NodeId → Bytes) (c : Cluster) : Prop where
  reachable : Stack.Reachable g c.stack
  replica : ∀ p, c.replicas p
    = (c.stack.handed p).foldl (Group.deliver (Replica.routes [])) Replica.init
  sent : c.stack.sent.map (·.2) = c.submitted.map (·.2.message)
  member : ∀ x ∈ c.submitted, x.1 ∈ g.ids
  read : ∀ p, (CommandInput.events (inputs p)).filterMap InputLine.transaction?
    = c.submittedBy p ++ (c.unread p).filterMap InputLine.transaction?

theorem kept_init (g : Roster) (inputs : NodeId → Bytes) :
    Kept g inputs (Cluster.init g inputs) where
  reachable := .init
  replica _ := rfl
  sent := rfl
  member := nofun
  read _ := rfl

/-- A line that is no command is not submitted. -/
theorem Kept.skip (h : Kept g inputs c) {e : BankError} {rest : List InputLine}
    (next : c.unread p = .malformed e :: rest) : Kept g inputs (c.skip p rest) where
  reachable := h.reachable
  replica := h.replica
  sent := h.sent
  member := h.member
  read q := by
    rw [h.read q]
    show _ = c.submittedBy q ++ (Function.update c.unread p rest q).filterMap _
    by_cases hq : q = p
    · rw [hq, Function.update_self, next]
      rfl
    · rw [Function.update_of_ne hq]

theorem Kept.submit (h : Kept g inputs c) {t : Transaction} {rest : List InputLine}
    {id floodId : MessageId} {targets : List NodeId} (member : p ∈ g.ids)
    (next : c.unread p = .transaction t :: rest) (fresh : ∀ x ∈ c.stack.sent, x.1 ≠ id)
    (freshFlood : ∀ x ∈ c.stack.net.issued, x.2.id ≠ floodId)
    (order : targets.Perm (c.stack.net.members p).peers.liveIds) :
    Kept g inputs (c.submit p t rest id floodId targets) where
  reachable := .step h.reachable (.submit member fresh freshFlood order)
  replica := h.replica
  sent := by
    show (c.stack.sent ++ [(id, t.message)]).map (·.2)
      = (c.submitted ++ [(p, t)]).map (·.2.message)
    rw [List.map_append, List.map_append, h.sent, List.map_singleton, List.map_singleton]
  member x hx := by
    rcases mem_append_singleton.1 hx with hx | rfl
    · exact h.member x hx
    · exact member
  read q := by
    rw [h.read q, submittedBy_submit]
    show _ = _ ++ (Function.update c.unread p rest q).filterMap _
    -- The line that was read is submitted by the node that read it.
    by_cases hq : q = p
    · rw [hq, Function.update_self, next, if_pos rfl, List.append_assoc]
      rfl
    · rw [Function.update_of_ne hq, if_neg hq, List.append_nil]

/-- What is handed over is carried out. -/
theorem Kept.handOver (h : Kept g inputs c) {d : Delivery} {rest : List Delivery}
    (oldest : (c.stack.net.members p).released = d :: rest) :
    Kept g inputs (c.handOver p d rest) where
  reachable := .step h.reachable (.handOver oldest)
  replica q := by
    show Function.update c.replicas p _ q = (Function.update c.stack.handed p _ q).foldl _ _
    by_cases hq : q = p
    · rw [hq, Function.update_self, Function.update_self, List.foldl_append, ← h.replica]
      rfl
    · rw [Function.update_of_ne hq, Function.update_of_ne hq]
      exact h.replica q
  sent := h.sent
  member := h.member
  read := h.read

/-- Lines that move change nothing of what was sent and handed over. -/
theorem Kept.move (h : Kept g inputs c) {s : Stack.State} (next : Stack.Move g c.stack s) :
    Kept g inputs { c with stack := s } := by
  obtain ⟨n, rfl⟩ := next.eq_setNet
  exact ⟨.step h.reachable (.move next), h.replica, h.sent, h.member, h.read⟩

theorem Step.kept (next : Step g c c') (h : Kept g inputs c) : Kept g inputs c' := by
  cases next with
  | skip next => exact h.skip next
  | submit member next fresh freshFlood order => exact h.submit member next fresh freshFlood order
  | move next => exact h.move next
  | handOver oldest => exact h.handOver oldest

theorem Reachable.kept (h : Reachable g inputs c) : Kept g inputs c := by
  induction h with
  | init => exact kept_init g inputs
  | step _ next ih => exact next.kept ih

/-! ## Coming to rest -/

theorem Kept.sent_length (h : Kept g inputs c) : c.stack.sent.length = c.submitted.length := by
  have hlength := congrArg List.length h.sent
  rw [List.length_map, List.length_map] at hlength
  exact hlength

/-- What can happen in the group can happen in the bank. -/
theorem exists_step_of_going {s : Stack.State} (h : Stack.Going g c.stack s) :
    ∃ c', Step g c c' ∧ c'.stack = s ∧ c'.submitted = c.submitted ∧ c'.unread = c.unread := by
  obtain ⟨⟨next, -⟩, hsent⟩ := h
  cases next with
  | submit => exact absurd (congrArg List.length hsent) (by simp [Stack.State.submit])
  | move next => exact ⟨_, .move next, rfl, rfl, rfl⟩
  | handOver oldest => exact ⟨_, .handOver oldest, rfl, rfl, rfl⟩

theorem Reachable.exists_of_going {s : Stack.State} (h : Reachable g inputs c)
    (run : Relation.ReflTransGen (Stack.Going g) c.stack s) : ∃ c', Reachable g inputs c' ∧
      c'.stack = s ∧ c'.submitted = c.submitted ∧ c'.unread = c.unread := by
  induction run with
  | refl => exact ⟨c, h, rfl, rfl, rfl⟩
  | tail _ going ih =>
    obtain ⟨c₁, h₁, rfl, hsubmitted₁, hunread₁⟩ := ih
    obtain ⟨c', next, hstack, hsubmitted, hunread⟩ := exists_step_of_going going
    exact ⟨c', h₁.step next, hstack, hsubmitted.trans hsubmitted₁, hunread.trans hunread₁⟩

/-- Every bank can come to rest without reading anything more. -/
theorem Reachable.exists_quiet (h : Reachable g inputs c)
    (hfew : 2 * c.submitted.length < MessageId.supply) : ∃ c', Reachable g inputs c' ∧
      c'.stack.Quiet g ∧ c'.submitted = c.submitted ∧ c'.unread = c.unread := by
  obtain ⟨s, hrun, hquiet⟩ := h.kept.reachable.exists_quiet (h.kept.sent_length ▸ hfew)
  obtain ⟨c', hc', rfl, hsame⟩ := h.exists_of_going hrun
  exact ⟨c', hc', hquiet, hsame⟩

/-- A node that has a command to read can submit it. -/
theorem Reachable.exists_submit (h : Reachable g inputs c) (hp : p ∈ g.ids) {t : Transaction}
    {rest : List InputLine} (next : c.unread p = .transaction t :: rest)
    (hfew : 2 * c.submitted.length < MessageId.supply) : ∃ c', Reachable g inputs c' ∧
      c'.submitted = c.submitted ++ [(p, t)] ∧ c'.unread = Function.update c.unread p rest := by
  have hsent := h.kept.sent_length
  have hissued := h.kept.reachable.issued_length
  have hsentFew : c.stack.sent.length < MessageId.supply := by omega
  have hissuedFew : c.stack.net.issued.length < MessageId.supply := by omega
  obtain ⟨id, fresh⟩ := MessageId.exists_fresh (·.1) hsentFew
  obtain ⟨floodId, freshFlood⟩ := MessageId.exists_fresh (fun x => x.2.id) hissuedFew
  exact ⟨_, h.step (.submit hp next fresh freshFlood (List.Perm.refl _)), rfl, rfl⟩

/-- A bank that has submitted few transactions has numbers left. -/
theorem Reachable.numbersLeft_of_few (h : Reachable g inputs c)
    (hfew : c.submitted.length * g.ids.length < 18446744073709551615) :
    c.stack.NumbersLeft g :=
  h.kept.reachable.numbersLeft_of_few (h.kept.sent_length ▸ hfew)

/-! ## One bank -/

/-- The ledger of a node is that of a bank that carried out what was handed to the node. -/
theorem Kept.ledger (h : Kept g inputs c) (p : NodeId) : (c.replicas p).ledger
    = Ledger.replay ((c.stack.handed p).filterMap fun d => transactionOf? d.body) := by
  rw [h.replica, ledger_of_deliveries]

/-- What was sent are the transactions that were submitted. -/
theorem Kept.transactions_sent (h : Kept g inputs c) :
    (c.stack.sent.map fun x => (x.1, Record.encode x.2)).filterMap (fun x => transactionOf? x.2)
      = c.submitted.map (·.2) := by
  have hsome (l : List (NodeId × Transaction)) :
      (l.map (·.2.message)).filterMap (fun m => transactionOf? (Record.encode m))
        = l.map (·.2) := by
    induction l with
    | nil => rfl
    | cons x l ih =>
      have hx := transactionOf?_encode x.2
      rw [List.map_cons, List.filterMap_cons, hx]
      exact congrArg (x.2 :: ·) ih
  simp only [← hsome, ← h.sent, List.filterMap_map, Function.comp_def]

/-- Once nothing is on its way, a node has been handed exactly the transactions that were
    submitted. -/
theorem Kept.transactions_perm (h : Kept g inputs c) (hleft : c.stack.NumbersLeft g)
    (hq : c.stack.Quiet g) (hp : p ∈ g.ids) :
    ((c.stack.handed p).filterMap fun d => transactionOf? d.body).Perm
      (c.submitted.map (·.2)) := by
  have hperm := (h.reachable.handed_perm hleft hq hp).filterMap fun x => transactionOf? x.2
  rw [h.transactions_sent, List.filterMap_map] at hperm
  exact hperm

/-- Once nothing is on its way, all nodes have been handed the same. -/
theorem Kept.handed_eq (h : Kept g inputs c) (hleft : c.stack.NumbersLeft g)
    (hq : c.stack.Quiet g) (hp : p ∈ g.ids) {q : NodeId} (hmember : q ∈ g.ids) :
    c.stack.handed p = c.stack.handed q := by
  have hlength : (c.stack.handed p).length = (c.stack.handed q).length := by
    have hp' := (h.reachable.handed_perm hleft hq hp).length_eq
    have hq' := (h.reachable.handed_perm hleft hq hmember).length_eq
    rw [List.length_map] at hp' hq'
    exact hp'.trans hq'.symm
  rcases h.reachable.handed_prefix hleft p q with hpq | hqp
  · exact hpq.eq_of_length hlength
  · exact (hqp.eq_of_length hlength.symm).symm

/-- While numbers are left, the ledgers of any two nodes are those of a bank that carried out two
    lists of deliveries, one of which starts the other. Once nothing is on its way, all ledgers are
    that of a bank that carried out all transactions that were submitted, in some order, and so all
    nodes show the same balances. What was submitted by a node are the commands that it has read of
    its input. -/
theorem ledgers_converge (h : Reachable g inputs c) (hleft : c.stack.NumbersLeft g) :
    (∀ p, (c.replicas p).ledger
        = Ledger.replay ((c.stack.handed p).filterMap fun d => transactionOf? d.body)) ∧
      (∀ p q, c.stack.handed p <+: c.stack.handed q ∨ c.stack.handed q <+: c.stack.handed p) ∧
      (c.stack.Quiet g → ∃ order : List Transaction, order.Perm (c.submitted.map (·.2)) ∧
        ∀ p ∈ g.ids, (c.replicas p).ledger = Ledger.replay order ∧
          (c.replicas p).ledger.snapshotLine = (Ledger.replay order).snapshotLine) ∧
      ∀ p, (CommandInput.events (inputs p)).filterMap InputLine.transaction?
        = c.submittedBy p ++ (c.unread p).filterMap InputLine.transaction? := by
  have hk := h.kept
  refine ⟨hk.ledger, hk.reachable.handed_prefix hleft, fun hq => ?_, hk.read⟩
  cases hids : g.ids with
  -- A group without members has submitted nothing.
  | nil =>
    refine ⟨c.submitted.map (·.2), .refl _, nofun⟩
  | cons first others =>
    have hfirst : first ∈ g.ids := hids ▸ List.mem_cons_self ..
    refine ⟨_, hk.transactions_perm hleft hq hfirst, fun p hp => ?_⟩
    rw [← hids] at hp
    have hledger := hk.ledger p
    rw [hk.handed_eq hleft hq hp hfirst] at hledger
    exact ⟨hledger, congrArg Ledger.snapshotLine hledger⟩

/-- Two nodes with a command each to read. -/
def branches : Roster where
  nodes := [⟨"a", .v4 .unspecified 1⟩, ⟨"b", .v4 .unspecified 2⟩]
  capacity := 1
  nodup := by decide

/-- What the two nodes read. -/
def deposits (p : NodeId) : Bytes :=
  Bytes.ofText (if p = "a" then "DEPOSIT x 5\n" else "DEPOSIT x 3\n")

/-- Both nodes come to carry out both transactions. -/
theorem ledgers_converge_of_deposits : ∃ c : Cluster, Reachable branches deposits c ∧
    c.stack.NumbersLeft branches ∧ c.stack.Quiet branches ∧
      ∀ p ∈ branches.ids, c.unread p = [] ∧
        (c.replicas p).ledger.snapshotLine = "BALANCES x:8" := by
  have hreadA : CommandInput.events (deposits "a") = [.transaction (.deposit "x" 5)] := by
    decide +kernel
  have hreadB : CommandInput.events (deposits "b") = [.transaction (.deposit "x" 3)] := by
    decide +kernel
  have hlines : ∀ order ∈ List.permutations' [.deposit "x" 5, .deposit "x" 3],
      (Ledger.replay order).snapshotLine = "BALANCES x:8" := by decide +kernel
  -- Each node submits what it reads, and then the bank comes to rest.
  obtain ⟨c₁, h₁, hsubmitted₁, hunread₁⟩ := Reachable.exists_submit (g := branches) (p := "a")
    .init (by decide) hreadA (by decide)
  obtain ⟨c₂, h₂, hsubmitted₂, hunread₂⟩ := h₁.exists_submit (p := "b") (by decide)
    (by rw [hunread₁]; exact hreadB) (by rw [hsubmitted₁]; decide)
  rw [hsubmitted₁] at hsubmitted₂
  obtain ⟨c, h, hquiet, hsubmitted, hunread⟩ := h₂.exists_quiet (by rw [hsubmitted₂]; decide)
  rw [hsubmitted₂] at hsubmitted
  have hleft : c.stack.NumbersLeft branches := h.numbersLeft_of_few (by rw [hsubmitted]; decide)
  obtain ⟨-, -, hrest, -⟩ := ledgers_converge h hleft
  obtain ⟨order, hperm, hledgers⟩ := hrest hquiet
  rw [hsubmitted] at hperm
  refine ⟨c, h, hleft, hquiet, fun p hp => ⟨?_, ?_⟩⟩
  · rw [hunread, hunread₂, hunread₁]
    have hmember : p = "a" ∨ p = "b" := by simpa [branches, Roster.ids] using hp
    rcases hmember with rfl | rfl
    · rw [Function.update_of_ne (by decide), Function.update_self]
    · rw [Function.update_self]
  · rw [(hledgers p hp).2]
    exact hlines order (List.mem_permutations'.2 hperm)

end AgreedOrder.Bank
