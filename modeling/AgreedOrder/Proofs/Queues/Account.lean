/-
  AgreedOrder.Proofs.Queues.Account

  What the queue and the counters of each member should say, told from what
  happened to a table of members: who was registered and who was taken out, and
  which lines were addressed to whom. A table that went through these events
  without meeting a full queue says just that.

    * `Event`, `Account`, `account` — what happened, and what it comes to.
    * `carry`, `carryAll` — a table through events.
    * `Matches.carry` — one event.
    * `matches_account` — any number of them.
-/

import AgreedOrder.Proofs.Sending
import Mathlib.Algebra.Ring.Nat

namespace AgreedOrder.Queues

/-! ## Accounts -/

/-- Something that happens to a table of members. -/
inductive Event
  | registered (node : Node) (capacity : Nat)
  | ejected (id : NodeId)
  /-- Nobody reads the queue of a member any more. -/
  | abandoned (id : NodeId)
  /-- A line is addressed to every live member. -/
  | toAll (line : String)
  /-- A line is addressed to one member. -/
  | toOne (target : NodeId) (line : String)

/-- The account of a live member since it was last registered. -/
structure Account where
  capacity : Nat
  /-- The lines that were addressed to it, the oldest first. -/
  lines : List String
  isRead : Bool

/-- The account of a member that was just registered. -/
def Account.init (capacity : Nat) : Account := ⟨max capacity 1, [], true⟩

/-- Another line is addressed to the member. -/
def Account.add (line : String) (a : Account) : Account := { a with lines := a.lines ++ [line] }

/-- The account of a member after an event. A member that is not live has none. -/
def Event.follow (q : NodeId) (a : Option Account) : Event → Option Account
  | .registered node capacity => if node.id = q then some (.init capacity) else a
  | .ejected id => if id = q then none else a
  | .abandoned id => if id = q then a.map ({ · with isRead := false }) else a
  | .toAll line => a.map (.add line)
  | .toOne target line => if target = q then a.map (.add line) else a

/-- The account of a member after events. -/
def account (q : NodeId) (es : List Event) : Option Account := es.foldl (Event.follow q) none

/-- The number of bytes in lines. -/
def byteCount (lines : List String) : Nat := (lines.map String.utf8ByteSize).sum

/-! ## Tables -/

/-- Put a line into queues, one after the other, unless one of them is full. A queue that nobody
    reads is passed over. -/
def sendTo (line : String) : List NodeId → PeerTable → Option PeerTable
  | [], t => some t
  | id :: rest, t =>
    match t.enqueue id line with
    | (.full, _) => none
    | (_, t) => sendTo line rest t

/-- A table after an event, unless a queue is full. -/
def carry (t : PeerTable) : Event → Option PeerTable
  | .registered node capacity => some (t.add node capacity)
  | .ejected id => some (t.remove id).2
  | .abandoned id => some (t.dropReader id)
  | .toAll line => sendTo line t.liveIds (t.countForAll line)
  | .toOne target line =>
    match t.countFor target line with
    | .error _ => some t
    | .ok t => sendTo line [target] t

/-- A table after events, unless a queue is full on the way. -/
def carryAll (t : PeerTable) : List Event → Option PeerTable
  | [] => some t
  | e :: es => (carry t e).bind fun t => carryAll t es

theorem carryAll_append (t : PeerTable) (es more : List Event) :
    carryAll t (es ++ more) = (carryAll t es).bind fun t => carryAll t more := by
  induction es generalizing t with
  | nil => rfl
  | cons e es ih =>
    show (carry t e).bind _ = ((carry t e).bind _).bind _
    rw [Option.bind_assoc]
    exact Option.bind_congr fun t _ => ih t

/-- An account says what the counters and the queue of a member say. The queue is not looked at once
    nobody reads it. -/
structure Account.Holds (a : Account) (peer : Peer) (b : Outbox) : Prop where
  messagesSent : peer.messagesSent.toNat = min a.lines.length (UInt64.size - 1)
  bytesSent : peer.bytesSent.toNat = min (byteCount a.lines) (UInt64.size - 1)
  capacity : b.capacity = a.capacity
  hasReader : b.hasReader = a.isRead
  lines : a.isRead = true → b.lines = a.lines
  within : a.isRead = true → a.lines.length ≤ a.capacity

/-- A member is live if it has an account, and then the account holds. -/
def Matches (t : PeerTable) (q : NodeId) : Option Account → Prop
  | none => t.peers.get? q = none
  | some a => ∃ peer b, t.peers.get? q = some peer ∧ t.outboxes.get? q = some b ∧ a.Holds peer b

/-! ## Counters -/

theorem toNat_addSaturating (n : UInt64) (k : Nat) :
    (PeerTable.addSaturating n k).toNat = min (n.toNat + k) (UInt64.size - 1) := by
  unfold PeerTable.addSaturating
  have hn := n.toNat_lt
  have hsize : UInt64.size = 2 ^ 64 := rfl
  split
  · show UInt64.size - 1 = _
    omega
  · rw [UInt64.toNat_ofNat_of_lt' (by omega)]
    omega

/-! ## Queues -/

/-- A queue after a line that it has room for. -/
def accept (line : String) (b : Outbox) : Outbox := if b.hasReader then b.push line else b

theorem byteCount_append (lines : List String) (line : String) :
    byteCount (lines ++ [line]) = byteCount lines + line.utf8ByteSize := by
  unfold byteCount
  rw [List.map_append, List.sum_append, List.map_singleton, List.sum_singleton]

variable {t t' : PeerTable} {q : NodeId}

theorem outboxes_enqueue {id : NodeId} {line : String} (h : (t.enqueue id line).1 ≠ .full) :
    (t.enqueue id line).2.peers = t.peers ∧
      (∀ q, (t.enqueue id line).2.outboxes.get? q
        = if q = id then (t.outboxes.get? q).map (accept line) else t.outboxes.get? q) ∧
      ∀ b, t.outboxes.get? id = some b → b.hasReader = true → b.lines.length < b.capacity := by
  unfold PeerTable.enqueue at h ⊢
  cases hb : t.outboxes.get? id with
  | none =>
    refine ⟨rfl, fun q => ?_, nofun⟩
    by_cases hq : q = id
    · rw [if_pos hq, hq, hb, Option.map_none]
    · rw [if_neg hq]
  | some b =>
    rw [hb] at h
    dsimp only at h ⊢
    cases hreader : b.hasReader with
    | false =>
      refine ⟨rfl, fun q => ?_, fun b' hb' hread => ?_⟩
      · by_cases hq : q = id
        · rw [if_pos hq, hq, hb, Option.map_some, accept, hreader, if_neg Bool.false_ne_true]
          exact hb
        · rw [if_neg hq]
          rfl
      · cases hb'
        rw [hreader] at hread
        cases hread
    | true =>
      rw [hreader, if_pos rfl] at h
      rw [if_pos rfl]
      cases hfull : b.isFull with
      | true =>
        rw [hfull] at h
        exact absurd rfl h
      | false =>
        refine ⟨rfl, fun q => ?_, fun b' hb' _ => ?_⟩
        · show (t.outboxes.modify id (·.push line)).get? q = _
          rw [SortedMap.get?_modify]
          by_cases hq : q = id
          · rw [if_pos hq, if_pos hq, hq, hb, Option.map_some, Option.map_some, accept,
              if_pos hreader]
          · rw [if_neg hq, if_neg hq]
        · cases hb'
          exact Nat.lt_of_not_le (of_decide_eq_false hfull)

/-- A line that was put into queues is in each of those that are read, behind what was there. -/
theorem sendTo_eq_some {line : String} {targets : List NodeId} (hnodup : targets.Nodup)
    (h : sendTo line targets t = some t') :
    t'.peers = t.peers ∧
      (∀ q, t'.outboxes.get? q
        = if q ∈ targets then (t.outboxes.get? q).map (accept line) else t.outboxes.get? q) ∧
      ∀ q ∈ targets, ∀ b, t.outboxes.get? q = some b → b.hasReader = true →
        b.lines.length < b.capacity := by
  induction targets generalizing t with
  | nil =>
    cases h
    exact ⟨rfl, fun _ => (if_neg List.not_mem_nil).symm, nofun⟩
  | cons id rest ih =>
    obtain ⟨hid, hrest⟩ := List.nodup_cons.1 hnodup
    rw [sendTo] at h
    split at h
    · cases h
    · rename_i o t₁ hroom heq
      have hwaits : (t.enqueue id line).1 ≠ .full := by
        rw [heq]
        exact hroom
      have hone := outboxes_enqueue hwaits
      rw [heq] at hone
      obtain ⟨hpeers, hget, hfits⟩ := hone
      obtain ⟨hpeers', hget', hfits'⟩ := ih hrest h
      refine ⟨hpeers'.trans hpeers, fun q => ?_, fun q hq b hb => ?_⟩
      · rw [hget', hget]
        by_cases hq : q = id
        · subst hq
          rw [if_neg hid, if_pos rfl, if_pos (List.mem_cons_self ..)]
        · simp only [List.mem_cons, hq, false_or, if_false]
      · rcases List.mem_cons.1 hq with rfl | hmem
        · exact hfits b hb
        · refine hfits' q hmem b ?_
          have hne : q ≠ id := by
            rintro rfl
            exact hid hmem
          rw [hget, if_neg hne]
          exact hb

/-! ## One event -/

variable {a : Account} {peer : Peer} {b : Outbox} {line : String}

/-- A line that is addressed to a member is counted, and goes into its queue if that is read. -/
theorem Account.Holds.add (h : a.Holds peer b)
    (room : b.hasReader = true → b.lines.length < b.capacity) :
    (a.add line).Holds (PeerTable.countLine line peer) (accept line b) where
  messagesSent := by
    show (PeerTable.addSaturating peer.messagesSent 1).toNat = min (a.lines ++ [line]).length _
    rw [toNat_addSaturating, h.messagesSent, List.length_append, List.length_singleton]
    omega
  bytesSent := by
    show (PeerTable.addSaturating peer.bytesSent _).toNat = min (byteCount (a.lines ++ [line])) _
    rw [toNat_addSaturating, h.bytesSent, byteCount_append]
    omega
  capacity := by
    unfold accept
    split <;> exact h.capacity
  hasReader := by
    unfold accept
    split <;> exact h.hasReader
  lines hread := by
    rw [accept, if_pos (h.hasReader.trans hread)]
    show b.lines ++ [line] = a.lines ++ [line]
    rw [h.lines hread]
  within hread := by
    have hroom := room (h.hasReader.trans hread)
    rw [h.lines hread, h.capacity] at hroom
    show (a.lines ++ [line]).length ≤ a.capacity
    rw [List.length_append, List.length_singleton]
    exact hroom

/-- A new member has an empty queue, and nothing was addressed to it. -/
theorem holds_init (node : Node) (capacity : Nat) :
    (Account.init capacity).Holds ⟨node, false, 0, 0⟩ (Outbox.init capacity) :=
  ⟨rfl, rfl, rfl, rfl, fun _ => rfl, fun _ => Nat.zero_le _⟩

theorem matches_of_eq {x : Option Account} (h : Matches t q x)
    (hpeer : t'.peers.get? q = t.peers.get? q) (hbox : t'.outboxes.get? q = t.outboxes.get? q) :
    Matches t' q x := by
  unfold Matches at h ⊢
  rw [hpeer, hbox]
  exact h

theorem Matches.registered {x : Option Account} (h : Matches t q x) (node : Node) (capacity : Nat) :
    Matches (t.add node capacity) q (if node.id = q then some (.init capacity) else x) := by
  by_cases hq : node.id = q
  · rw [if_pos hq]
    subst hq
    exact ⟨_, _, SortedMap.get?_insert_self .., SortedMap.get?_insert_self .., holds_init ..⟩
  · rw [if_neg hq]
    exact matches_of_eq h (SortedMap.get?_insert_of_ne _ _ (Ne.symm hq))
      (SortedMap.get?_insert_of_ne _ _ (Ne.symm hq))

theorem Matches.ejected {x : Option Account} (h : Matches t q x) (id : NodeId) :
    Matches (t.remove id).2 q (if id = q then none else x) := by
  unfold PeerTable.remove
  by_cases hq : id = q
  · rw [if_pos hq]
    subst hq
    split
    · rename_i hnone
      exact hnone
    · exact SortedMap.get?_erase_self ..
  · rw [if_neg hq]
    split
    · exact h
    · refine matches_of_eq h (SortedMap.get?_erase_of_ne _ (Ne.symm hq)) ?_
      rw [SortedMap.get?_modify, if_neg (Ne.symm hq)]

theorem Matches.abandoned {x : Option Account} (h : Matches t q x) (id : NodeId) :
    Matches (t.dropReader id) q
      (if id = q then x.map ({ · with isRead := false }) else x) := by
  have hbox := SortedMap.get?_modify t.outboxes id q fun b => { b with hasReader := false }
  by_cases hq : id = q
  · rw [if_pos hq]
    cases x with
    | none => exact h
    | some a =>
      obtain ⟨peer, b, hpeer, hb, hholds⟩ := h
      rw [if_pos hq.symm, hb] at hbox
      exact ⟨peer, _, hpeer, hbox, hholds.messagesSent, hholds.bytesSent, hholds.capacity, rfl,
        nofun, nofun⟩
  · rw [if_neg hq]
    rw [if_neg (Ne.symm hq)] at hbox
    exact matches_of_eq h rfl hbox

theorem Matches.toAll {x : Option Account} (h : Matches t q x)
    (hc : carry t (.toAll line) = some t') :
    Matches t' q (x.map (.add line)) := by
  have hlive := t.mem_liveIds q
  rw [PeerTable.isLive, SortedMap.contains] at hlive
  obtain ⟨hpeers, hget, hroom⟩ := sendTo_eq_some t.nodup_liveIds hc
  have hpeer : t'.peers.get? q = (t.peers.get? q).map (PeerTable.countLine line) := by
    rw [hpeers]
    exact SortedMap.get?_map _ _ _ fun _ _ => rfl
  cases x with
  | none =>
    show t'.peers.get? q = none
    rw [hpeer, show t.peers.get? q = none from h, Option.map_none]
  | some a =>
    obtain ⟨peer, b, hp, hb, hholds⟩ := h
    have hmem : q ∈ t.liveIds := hlive.2 (by rw [hp]; rfl)
    have hbox := hget q
    rw [if_pos hmem, show (t.countForAll line).outboxes.get? q = some b from hb] at hbox
    rw [hp] at hpeer
    exact ⟨_, _, hpeer, hbox, hholds.add (hroom q hmem b hb)⟩

theorem Matches.toOne {x : Option Account} (h : Matches t q x) {target : NodeId}
    (hc : carry t (.toOne target line) = some t') :
    Matches t' q (if target = q then x.map (.add line) else x) := by
  unfold carry PeerTable.countFor at hc
  dsimp only at hc
  cases hp : t.peers.get? target with
  -- Nothing becomes of a line for a member that is not live.
  | none =>
    rw [hp] at hc
    cases hc
    by_cases hq : target = q
    · rw [if_pos hq]
      subst hq
      cases x with
      | none => exact hp
      | some a =>
        obtain ⟨peer, b, hp', -⟩ := h
        rw [hp] at hp'
        cases hp'
    · rw [if_neg hq]
      exact h
  | some peer =>
    rw [hp] at hc
    obtain ⟨hpeers, hget, hroom⟩ := sendTo_eq_some (List.pairwise_singleton _ target) hc
    by_cases hq : target = q
    · rw [if_pos hq]
      subst hq
      cases x with
      | none =>
        rw [show t.peers.get? target = none from h] at hp
        cases hp
      | some a =>
        obtain ⟨peer', b, hp', hb, hholds⟩ := h
        rw [hp] at hp'
        cases hp'
        have hbox := hget target
        rw [if_pos (List.mem_singleton_self _)] at hbox
        refine ⟨_, _, ?_, hbox.trans (congrArg _ hb),
          hholds.add (hroom target (List.mem_singleton_self _) b hb)⟩
        rw [hpeers]
        exact SortedMap.get?_insert_self ..
    · rw [if_neg hq]
      have hnot : q ∉ [target] := fun hmem => hq (List.mem_singleton.1 hmem).symm
      refine matches_of_eq h ?_ ?_
      · rw [hpeers]
        exact SortedMap.get?_insert_of_ne _ _ (Ne.symm hq)
      · rw [hget, if_neg hnot]

theorem Matches.carry {x : Option Account} (h : Matches t q x) {e : Event}
    (hc : carry t e = some t') : Matches t' q (Event.follow q x e) := by
  cases e with
  | registered node capacity =>
    cases hc
    exact h.registered node capacity
  | ejected id =>
    cases hc
    exact h.ejected id
  | abandoned id =>
    cases hc
    exact h.abandoned id
  | toAll line => exact h.toAll hc
  | toOne target line => exact h.toOne hc

/-! ## Any number of events -/

theorem Matches.carryAll {x : Option Account} {es : List Event} (h : Matches t q x)
    (hc : carryAll t es = some t') : Matches t' q (es.foldl (Event.follow q) x) := by
  induction es generalizing t x with
  | nil =>
    cases hc
    exact h
  | cons e es ih =>
    obtain ⟨t₁, he, hes⟩ := Option.bind_eq_some_iff.1 hc
    exact ih (h.carry he) hes

/-- A new table that went through events without meeting a full queue says what they come to. -/
theorem matches_account {es : List Event} (h : carryAll .empty es = some t) (q : NodeId) :
    Matches t q (account q es) :=
  Matches.carryAll (t := .empty) (x := none) rfl h

/-! ## Members that are not live -/

/-- A member is registered. -/
def Event.Registers (q : NodeId) : Event → Prop
  | .registered node _ => node.id = q
  | _ => False

/-- Nothing is put into the queue of a member that is not live, until it is registered. -/
theorem waiting_carry {e : Event} (hq : t.isLive q = false) (he : ¬e.Registers q)
    (hc : carry t e = some t') : t'.isLive q = false ∧ t'.waiting q = t.waiting q := by
  cases e with
  | registered node capacity =>
    cases hc
    have hne : q ≠ node.id := fun heq => he heq.symm
    rw [PeerTable.isLive_add, decide_eq_false hne, hq, (PeerTable.queues_add ..).1, if_neg hne]
    exact ⟨rfl, rfl⟩
  | ejected id =>
    cases hc
    rw [PeerTable.isLive_remove, hq, Bool.and_false]
    exact ⟨rfl, PeerTable.waiting_remove ..⟩
  | abandoned id =>
    cases hc
    exact ⟨hq, PeerTable.waiting_dropReader ..⟩
  | toAll line =>
    have hnot : q ∉ t.liveIds := by
      rw [t.mem_liveIds, hq]
      exact Bool.false_ne_true
    obtain ⟨hpeers, hget, -⟩ := sendTo_eq_some t.nodup_liveIds hc
    refine ⟨?_, ?_⟩
    · rw [PeerTable.isLive, hpeers]
      exact (t.isLive_countForAll line q).trans hq
    · rw [PeerTable.waiting, hget, if_neg hnot]
      rfl
  | toOne target line =>
    unfold carry at hc
    dsimp only at hc
    cases hcount : t.countFor target line with
    | error e =>
      rw [hcount] at hc
      cases hc
      exact ⟨hq, rfl⟩
    | ok counted =>
      rw [hcount] at hc
      obtain ⟨hpeers, hget, -⟩ := sendTo_eq_some (List.pairwise_singleton _ target) hc
      have hne : q ≠ target := by
        rintro rfl
        rw [PeerTable.countFor_of_not_live hq] at hcount
        cases hcount
      refine ⟨?_, ?_⟩
      · rw [PeerTable.isLive, hpeers]
        exact (PeerTable.isLive_countFor hcount q).1.trans hq
      · rw [PeerTable.waiting, hget, if_neg fun hmem => hne (List.mem_singleton.1 hmem),
          PeerTable.outboxes_countFor hcount]
        rfl

theorem waiting_carryAll {es : List Event} (hq : t.isLive q = false)
    (hes : ∀ e ∈ es, ¬e.Registers q) (hc : carryAll t es = some t') :
    t'.waiting q = t.waiting q := by
  induction es generalizing t with
  | nil =>
    cases hc
    rfl
  | cons e es ih =>
    obtain ⟨t₁, he, hes'⟩ := Option.bind_eq_some_iff.1 hc
    obtain ⟨hlive, hwaiting⟩ := waiting_carry hq (hes e (List.mem_cons_self ..)) he
    rw [← hwaiting]
    exact ih hlive (fun e' h => hes e' (List.mem_cons_of_mem _ h)) hes'

end AgreedOrder.Queues
