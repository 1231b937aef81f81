/-
  AgreedOrder.Proofs.Sequencer.Coherence

  A sequencer keeps each held message twice: in its table of messages and as
  an entry of its hold queue. It is coherent when both sides know the same
  messages and say the same of each. What it holds is then one look-up, and an
  ask or an agreement changes that look-up at one message.

    * `held?_enlist`, `held?_onAgreement` — look-ups after an ask, an agreement.
    * `lt_nextNumber` — a new number lies above all seen before.
-/

import AgreedOrder.Proofs.HoldQueue.Operations
import AgreedOrder.Sequencer

namespace AgreedOrder

namespace Sequencer

variable {s : Sequencer}

/-! ## Numbers -/

theorem le_succSaturating (n : UInt64) : n ≤ succSaturating n := by
  unfold succSaturating
  split
  · exact UInt64.le_refl n
  · rename_i hn
    rw [UInt64.le_iff_toNat_le, UInt64.toNat_add]
    have hlt := n.toNat_lt
    have hne : n.toNat ≠ 18446744073709551615 := fun h => hn (UInt64.toNat_inj.1 h)
    simp only [UInt64.toNat_one]
    omega

theorem lt_succSaturating {n : UInt64} (h : n ≠ 18446744073709551615) : n < succSaturating n := by
  unfold succSaturating
  rw [if_neg h, UInt64.lt_iff_toNat_lt, UInt64.toNat_add]
  have hlt := n.toNat_lt
  have hne : n.toNat ≠ 18446744073709551615 := fun heq => h (UInt64.toNat_inj.1 heq)
  simp only [UInt64.toNat_one]
  omega

/-- Only the last number of the range is as large as the last one. -/
theorem eq_last_of_le {n : UInt64} (h : 18446744073709551615 ≤ n) : n = 18446744073709551615 := by
  have hlt := n.toNat_lt
  rw [UInt64.le_iff_toNat_le] at h
  refine UInt64.toNat_inj.1 ?_
  rw [show (18446744073709551615 : UInt64).toNat = 18446744073709551615 from rfl] at h ⊢
  omega

theorem le_max_left (a b : UInt64) : a ≤ max a b := by
  rw [show max a b = if a ≤ b then b else a from rfl]
  split
  · assumption
  · exact UInt64.le_refl a

theorem le_max_right (a b : UInt64) : b ≤ max a b := by
  rw [show max a b = if a ≤ b then b else a from rfl]
  split
  · exact UInt64.le_refl b
  · rename_i hab
    exact UInt64.le_of_lt (UInt64.not_le.1 hab)

theorem maxAgreed_le_nextNumber (s : Sequencer) : s.maxAgreed ≤ s.nextNumber :=
  UInt64.le_trans (le_max_left _ _) (le_succSaturating _)

theorem maxProposed_le_nextNumber (s : Sequencer) : s.maxProposed ≤ s.nextNumber :=
  UInt64.le_trans (le_max_right _ _) (le_succSaturating _)

/-- While the last number was neither agreed nor proposed, a new one lies above all that were. -/
theorem lt_nextNumber_of_ne (hagreed : s.maxAgreed ≠ 18446744073709551615)
    (hproposed : s.maxProposed ≠ 18446744073709551615) :
    s.maxAgreed < s.nextNumber ∧ s.maxProposed < s.nextNumber := by
  have hne : max s.maxAgreed s.maxProposed ≠ 18446744073709551615 := by
    rw [show max s.maxAgreed s.maxProposed
      = if s.maxAgreed ≤ s.maxProposed then s.maxProposed else s.maxAgreed from rfl]
    split <;> assumption
  have hlt : max s.maxAgreed s.maxProposed < s.nextNumber := lt_succSaturating hne
  exact ⟨UInt64.lt_of_le_of_lt (le_max_left _ _) hlt, UInt64.lt_of_le_of_lt (le_max_right _ _) hlt⟩

/-- Short of the end of the range, a new number lies above all agreed or proposed before. -/
theorem lt_nextNumber (h : s.nextNumber ≠ 18446744073709551615) :
    s.maxAgreed < s.nextNumber ∧ s.maxProposed < s.nextNumber := by
  refine lt_nextNumber_of_ne (fun heq => h (eq_last_of_le ?_)) fun heq => h (eq_last_of_le ?_)
  · exact heq ▸ s.maxAgreed_le_nextNumber
  · exact heq ▸ s.maxProposed_le_nextNumber

/-! ## What is held -/

/-- A held message beside its entry in the queue. -/
structure Held where
  message : HeldMessage
  entry : HoldEntry

/-- The message held under an id. -/
def held? (s : Sequencer) (id : MessageId) : Option Held :=
  match s.messages.get? id, s.hold.get? id with
  | some message, some entry => some ⟨message, entry⟩
  | _, _ => none

/-- The entry says of the message what the message says of itself. -/
structure Held.Fits (x : Held) (id : MessageId) : Prop where
  id_eq : x.entry.id = id
  agreed_eq : x.entry.agreed = x.message.agreed
  of_open : x.message.agreed = false →
    x.entry.number = x.message.proposed ∧ x.entry.process = x.message.sender
  of_agreed : x.message.agreed = true → x.entry.number = x.message.agreement

/-- The table of messages and the queue know the same messages, say the same of each, and stay
    within the largest numbers seen. -/
structure Coherent (s : Sequencer) : Prop where
  wellFormed : s.hold.WellFormed
  isSome_eq : ∀ id, (s.messages.get? id).isSome = (s.hold.get? id).isSome
  fits : ∀ id x, s.held? id = some x → x.Fits id
  proposed_le : ∀ id x, s.held? id = some x → x.message.proposed ≤ s.maxProposed
  agreement_le : ∀ id x, s.held? id = some x → x.message.agreed = true →
    x.message.agreement ≤ s.maxAgreed

theorem held?_eq_some_iff {id : MessageId} {x : Held} : s.held? id = some x ↔
    s.messages.get? id = some x.message ∧ s.hold.get? id = some x.entry := by
  unfold held?
  constructor
  · intro h
    split at h
    · rename_i hm he
      cases h
      exact ⟨hm, he⟩
    · cases h
  · rintro ⟨hm, he⟩
    rw [hm, he]

theorem message_eq_of_held? {id : MessageId} {x : Held} {m : HeldMessage}
    (hx : s.held? id = some x) (hm : s.messages.get? id = some m) : x.message = m := by
  rw [(held?_eq_some_iff.1 hx).1] at hm
  exact Option.some.inj hm

theorem Coherent.get?_messages (h : s.Coherent) (id : MessageId) :
    s.messages.get? id = (s.held? id).map Held.message := by
  have hsome := h.isSome_eq id
  unfold held?
  cases hm : s.messages.get? id <;> cases he : s.hold.get? id <;> simp_all

theorem Coherent.get?_hold (h : s.Coherent) (id : MessageId) :
    s.hold.get? id = (s.held? id).map Held.entry := by
  have hsome := h.isSome_eq id
  unfold held?
  cases hm : s.messages.get? id <;> cases he : s.hold.get? id <;> simp_all

theorem init_coherent (self : NodeId) : (init self).Coherent where
  wellFormed := HoldQueue.empty_wellFormed
  isSome_eq _ := rfl
  fits _ _ hx := by cases hx
  proposed_le _ _ hx := by cases hx
  agreement_le _ _ hx := by cases hx

@[simp] theorem held?_init (self : NodeId) (id : MessageId) : (init self).held? id = none := rfl

/-- Nothing is pending exactly when nothing is held. -/
theorem Coherent.pending_eq_zero_iff (h : s.Coherent) :
    s.pending = 0 ↔ ∀ id, s.held? id = none := by
  unfold pending
  rw [h.wellFormed.size_eq_zero_iff]
  simp only [h.get?_hold, Option.map_eq_none_iff]

/-! ## An ask -/

/-- What is held of a message that was just asked for. -/
def Held.ofAsk (ask : Ask) (number : UInt64) : Held :=
  ⟨⟨ask.body, number, ask.sender, 0, false⟩, ⟨number, false, ask.sender, ask.id⟩⟩

/-- Hold a message under the next number. -/
def enlist (s : Sequencer) (ask : Ask) : Sequencer :=
  { s with
    maxProposed := s.nextNumber
    messages := s.messages.insert ask.id (Held.ofAsk ask s.nextNumber).message
    hold := s.hold.push (Held.ofAsk ask s.nextNumber).entry }

theorem onAsk_of_held {ask : Ask} {x : Held} (h : s.held? ask.id = some x) :
    s.onAsk ask = (⟨s.self, ask.id, x.message.proposed⟩, s) := by
  unfold onAsk
  rw [(held?_eq_some_iff.1 h).1]

theorem Coherent.onAsk_of_new (h : s.Coherent) {ask : Ask} (hnew : s.held? ask.id = none) :
    s.onAsk ask = (⟨s.self, ask.id, s.nextNumber⟩, s.enlist ask) := by
  have hm : s.messages.get? ask.id = none := by rw [h.get?_messages, hnew, Option.map_none]
  unfold onAsk
  rw [hm]
  rfl

theorem self_onAsk (s : Sequencer) (ask : Ask) :
    (s.onAsk ask).1.voter = s.self ∧ (s.onAsk ask).2.self = s.self := by
  unfold onAsk
  split <;> exact ⟨rfl, rfl⟩

theorem id_onAsk (s : Sequencer) (ask : Ask) : (s.onAsk ask).1.id = ask.id := by
  unfold onAsk
  split <;> rfl

theorem maxProposed_le_onAsk (s : Sequencer) (ask : Ask) :
    s.maxProposed ≤ (s.onAsk ask).2.maxProposed := by
  unfold onAsk
  split
  · exact UInt64.le_refl _
  · exact s.maxProposed_le_nextNumber

theorem Coherent.held?_enlist (h : s.Coherent) (ask : Ask) (id : MessageId) :
    (s.enlist ask).held? id
      = if id = ask.id then some (Held.ofAsk ask s.nextNumber) else s.held? id := by
  have hpush := h.wellFormed.get?_push (Held.ofAsk ask s.nextNumber).entry id
  have hid : (Held.ofAsk ask s.nextNumber).entry.id = ask.id := rfl
  rw [hid] at hpush
  unfold held? enlist
  rw [SortedMap.get?_insert_eq_ite, hpush]
  by_cases hask : id = ask.id
  · rw [if_pos hask, if_pos hask, if_pos hask]
  · rw [if_neg hask, if_neg hask, if_neg hask]

theorem Coherent.enlist (h : s.Coherent) (ask : Ask) : (s.enlist ask).Coherent where
  wellFormed := h.wellFormed.push _
  isSome_eq id := by
    have hpush := h.wellFormed.get?_push (Held.ofAsk ask s.nextNumber).entry id
    have hid : (Held.ofAsk ask s.nextNumber).entry.id = ask.id := rfl
    rw [hid] at hpush
    unfold Sequencer.enlist
    rw [SortedMap.get?_insert_eq_ite, hpush]
    split
    · rfl
    · exact h.isSome_eq id
  fits id x hx := by
    rw [h.held?_enlist] at hx
    split at hx
    · rename_i hid
      cases hx
      exact ⟨hid.symm, rfl, fun _ => ⟨rfl, rfl⟩, (fun hn => Bool.noConfusion hn)⟩
    · exact h.fits id x hx
  proposed_le id x hx := by
    rw [h.held?_enlist] at hx
    split at hx
    · cases hx
      exact UInt64.le_refl _
    · exact UInt64.le_trans (h.proposed_le id x hx) s.maxProposed_le_nextNumber
  agreement_le id x hx hagreed := by
    rw [h.held?_enlist] at hx
    split at hx
    · cases hx
      cases hagreed
    · exact h.agreement_le id x hx hagreed

theorem Coherent.onAsk (h : s.Coherent) (ask : Ask) : (s.onAsk ask).2.Coherent := by
  cases hheld : s.held? ask.id with
  | some x =>
    rw [onAsk_of_held hheld]
    exact h
  | none =>
    rw [h.onAsk_of_new hheld]
    exact h.enlist ask

/-! ## An agreement -/

/-- What is held of a message once its number is agreed. -/
def Held.agree (a : Agreement) (x : Held) : Held :=
  ⟨{ x.message with agreement := a.number, agreed := true }, ⟨a.number, true, a.voter, a.id⟩⟩

@[simp] theorem maxAgreed_onAgreement (s : Sequencer) (a : Agreement) :
    (s.onAgreement a).2.maxAgreed = max s.maxAgreed a.number := by
  unfold onAgreement
  dsimp only
  split <;> rfl

@[simp] theorem maxProposed_onAgreement (s : Sequencer) (a : Agreement) :
    (s.onAgreement a).2.maxProposed = s.maxProposed := by
  unfold onAgreement
  dsimp only
  split <;> rfl

@[simp] theorem self_onAgreement (s : Sequencer) (a : Agreement) :
    (s.onAgreement a).2.self = s.self := by
  unfold onAgreement
  dsimp only
  split <;> rfl

theorem Coherent.get?_messages_onAgreement (h : s.Coherent) (a : Agreement) (id : MessageId) :
    (s.onAgreement a).2.messages.get? id
      = if id = a.id then (s.held? id).map fun x => (x.agree a).message
        else (s.held? id).map Held.message := by
  have hm := h.get?_messages
  unfold onAgreement
  dsimp only
  split
  · rename_i hnone
    rw [hm] at hnone
    split
    · rename_i hid
      rw [hm, hid, Option.map_eq_none_iff.1 hnone]
      rfl
    · exact hm id
  · rename_i held hsome
    rw [SortedMap.get?_insert_eq_ite]
    split
    · rename_i hid
      rw [hm] at hsome
      obtain ⟨x, hx, rfl⟩ := Option.map_eq_some_iff.1 hsome
      rw [hid, hx]
      rfl
    · exact hm id

theorem Coherent.get?_hold_onAgreement (h : s.Coherent) (a : Agreement) (id : MessageId) :
    (s.onAgreement a).2.hold.get? id
      = if id = a.id then (s.held? id).map fun x => (x.agree a).entry
        else (s.held? id).map Held.entry := by
  have he := h.get?_hold
  have hm := h.get?_messages
  unfold onAgreement
  dsimp only
  split
  · rename_i hnone
    rw [hm] at hnone
    split
    · rename_i hid
      rw [he, hid, Option.map_eq_none_iff.1 hnone]
      rfl
    · exact he id
  · dsimp only
    rw [h.wellFormed.get?_update]
    split
    · rename_i hid
      rw [he, hid, Option.map_map]
      rfl
    · exact he id

theorem Coherent.held?_onAgreement (h : s.Coherent) (a : Agreement) (id : MessageId) :
    (s.onAgreement a).2.held? id
      = if id = a.id then (s.held? id).map (Held.agree a) else s.held? id := by
  unfold held?
  rw [h.get?_messages_onAgreement, h.get?_hold_onAgreement]
  -- A message and its place in the queue are there or missing together.
  have hsome := h.isSome_eq id
  unfold held?
  by_cases hid : id = a.id
  · rw [if_pos hid, if_pos hid, if_pos hid]
    cases hm : s.messages.get? id <;> cases hq : s.hold.get? id <;> simp_all
  · rw [if_neg hid, if_neg hid, if_neg hid]
    cases hm : s.messages.get? id <;> cases hq : s.hold.get? id <;> simp_all

theorem Coherent.onAgreement (h : s.Coherent) (a : Agreement) :
    (s.onAgreement a).2.Coherent where
  wellFormed := by
    unfold Sequencer.onAgreement
    dsimp only
    split
    · exact h.wellFormed
    · exact h.wellFormed.update _ _ _ _
  isSome_eq id := by
    rw [h.get?_messages_onAgreement, h.get?_hold_onAgreement]
    split <;> simp
  fits id x hx := by
    rw [h.held?_onAgreement] at hx
    split at hx
    · rename_i hid
      obtain ⟨y, -, rfl⟩ := Option.map_eq_some_iff.1 hx
      exact ⟨hid.symm, rfl, (fun hn => Bool.noConfusion hn), fun _ => rfl⟩
    · exact h.fits id x hx
  proposed_le id x hx := by
    rw [h.held?_onAgreement] at hx
    rw [maxProposed_onAgreement]
    split at hx
    · obtain ⟨y, hy, rfl⟩ := Option.map_eq_some_iff.1 hx
      exact h.proposed_le id y hy
    · exact h.proposed_le id x hx
  agreement_le id x hx hagreed := by
    rw [h.held?_onAgreement] at hx
    rw [maxAgreed_onAgreement]
    split at hx
    · obtain ⟨y, -, rfl⟩ := Option.map_eq_some_iff.1 hx
      exact le_max_right _ _
    · exact UInt64.le_trans (h.agreement_le id x hx hagreed) (le_max_left _ _)

end Sequencer

end AgreedOrder
