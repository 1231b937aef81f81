/-
  AgreedOrder.Proofs.Sequencer.Bookkeeping

  What a sequencer keeps twice agrees, whatever it was given: asks that come
  again, agreements that come twice, fall or are for unknown messages, and
  releases under any view of the group. Its two largest numbers are those of
  all that it proposed, and of all that it heard agreed.

    * `largest` — the largest of some numbers.
    * `Summed.call`, `summed_after` — one call, and any number of them.
    * `table_matches_queue` — the table of messages, the queue and the numbers.
-/

import AgreedOrder.Proofs.Sequencer.Guarded
import AgreedOrder.Proofs.Sequencer.History

namespace AgreedOrder.Sequencer

/-! ## The largest number -/

/-- The largest of some numbers, or 0 if there is none. -/
def largest (ns : List UInt64) : UInt64 := ns.foldl max 0

@[simp] theorem largest_append_singleton (ns : List UInt64) (n : UInt64) :
    largest (ns ++ [n]) = max (largest ns) n := List.foldl_concat ..

theorem max_eq_left {a b : UInt64} (h : b ≤ a) : max a b = a := by
  rw [show max a b = if a ≤ b then b else a from rfl]
  split
  · rename_i hab
    exact UInt64.le_antisymm h hab
  · rfl

theorem max_eq_right {a b : UInt64} (h : a ≤ b) : max a b = b := if_pos h

namespace History

/-! ## What the largest numbers are -/

/-- The largest number proposed is that of all proposals, and the largest number agreed that of all
    agreements. -/
structure Summed (h : History) : Prop where
  maxProposed_eq : h.sequencer.maxProposed = largest (h.proposed.map (·.number))
  maxAgreed_eq : h.sequencer.maxAgreed = largest (h.agreed.map (·.number))

variable {h : History}

theorem Summed.ask (hs : Summed h) (hcoherent : h.sequencer.Coherent) (ask : Ask) :
    Summed (h.call (.ask ask)) := by
  unfold History.call
  dsimp only
  cases hx : h.sequencer.held? ask.id with
  -- A proposal that is repeated is one of those made before.
  | some x =>
    rw [onAsk_of_held hx]
    refine ⟨?_, hs.maxAgreed_eq⟩
    rw [List.map_append, List.map_singleton, largest_append_singleton, ← hs.maxProposed_eq]
    exact (max_eq_left (hcoherent.proposed_le ask.id x hx)).symm
  | none =>
    rw [hcoherent.onAsk_of_new hx]
    refine ⟨?_, hs.maxAgreed_eq⟩
    rw [List.map_append, List.map_singleton, largest_append_singleton, ← hs.maxProposed_eq]
    exact (max_eq_right h.sequencer.maxProposed_le_nextNumber).symm

theorem Summed.agreement (hs : Summed h) (a : Agreement) : Summed (h.call (.agreement a)) := by
  unfold History.call
  constructor
  · rw [maxProposed_onAgreement]
    exact hs.maxProposed_eq
  · rw [maxAgreed_onAgreement, List.map_append, List.map_singleton, largest_append_singleton,
      hs.maxAgreed_eq]

theorem Summed.release (hs : Summed h) (live : NodeId → Bool) :
    Summed (h.call (.release live)) := by
  unfold History.call
  constructor
  · rw [maxProposed_release]
    exact hs.maxProposed_eq
  · rw [maxAgreed_release]
    exact hs.maxAgreed_eq

theorem Summed.call (hs : Summed h) (hcoherent : h.sequencer.Coherent) :
    ∀ c, Summed (h.call c)
  | .ask ask => hs.ask hcoherent ask
  | .agreement a => hs.agreement a
  | .release live => hs.release live

theorem summed_after (p : NodeId) (calls : List Call) : Summed (after p calls) := by
  induction calls using List.reverseRecOn with
  | nil => exact ⟨rfl, rfl⟩
  | append_singleton calls c ih =>
    rw [after_append_singleton]
    exact ih.call (numbered_after p calls).coherent c

end History

/-! ## The table and the queue -/

/-- An entry of the queue belongs to a message of the table, and says the same of it. -/
theorem Coherent.exists_message {s : Sequencer} (h : s.Coherent) {e : HoldEntry}
    (he : e ∈ s.hold.entries) : ∃ x, s.held? e.id = some x ∧ x.entry = e := by
  have hget := h.wellFormed.indexed.get?_eq_some_iff.2 ⟨he, rfl⟩
  rw [h.get?_hold] at hget
  exact Option.map_eq_some_iff.1 hget

theorem Coherent.contains_messages {s : Sequencer} (h : s.Coherent) (id : MessageId) :
    s.messages.contains id = s.hold.contains id :=
  (h.isSome_eq id).trans (h.wellFormed.indexed.contains_eq id).symm

/-- After any calls the table and the queue know the same messages; an entry that is not agreed has
    the number and the sender of its message, and one that is agreed has the number agreed; the
    largest numbers are those of all proposals and all agreements, and no held message was proposed
    a larger one. So no agreement finds a message without its entry, no release finds an entry
    without its message, and an agreement on an unknown message does nothing but count. -/
theorem History.table_matches_queue (p : NodeId) (calls : List Call) :
    let h := after p calls
    let s := h.sequencer
    (s.hold.WellFormed ∧ (∀ id, s.messages.contains id = s.hold.contains id) ∧
      ∀ e ∈ s.hold.entries, ∃ held, s.messages.get? e.id = some held ∧
        e.agreed = held.agreed ∧
        (held.agreed = false → e.number = held.proposed ∧ e.process = held.sender) ∧
        (held.agreed = true → e.number = held.agreement) ∧
        held.proposed ≤ s.maxProposed) ∧
    (s.maxProposed = largest (h.proposed.map (·.number)) ∧
      s.maxAgreed = largest (h.agreed.map (·.number))) ∧
    (∀ a, Guarded.onAgreement s a = some (s.onAgreement a)) ∧
    (∀ live, Guarded.release live s = some (s.release live)) ∧
    ∀ a, s.messages.contains a.id = false →
      s.onAgreement a = (.error (.unknownMessage a.id),
        { s with maxAgreed := max s.maxAgreed a.number }) := by
  have hcoherent := (numbered_after p calls).coherent
  have hsummed := summed_after p calls
  refine ⟨⟨hcoherent.wellFormed, hcoherent.contains_messages, fun e he => ?_⟩,
    ⟨hsummed.maxProposed_eq, hsummed.maxAgreed_eq⟩, Guarded.onAgreement_eq hcoherent,
    Guarded.release_eq hcoherent, fun a hunknown => ?_⟩
  · obtain ⟨x, hx, rfl⟩ := hcoherent.exists_message he
    have hfits := hcoherent.fits _ x hx
    exact ⟨x.message, (held?_eq_some_iff.1 hx).1, hfits.agreed_eq, hfits.of_open,
      hfits.of_agreed, hcoherent.proposed_le _ x hx⟩
  · have hnone : (after p calls).sequencer.messages.get? a.id = none := by
      rw [SortedMap.contains, Option.isSome_eq_false_iff, Option.isNone_iff_eq_none] at hunknown
      exact hunknown
    unfold onAgreement
    dsimp only
    rw [hnone]

end AgreedOrder.Sequencer
