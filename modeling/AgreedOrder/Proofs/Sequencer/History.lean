/-
  AgreedOrder.Proofs.Sequencer.History

  A sequencer together with all that went in and out of it, call after call,
  from its first state on. Nothing is assumed of the calls: asks may come
  again, an agreement may be for any message and carry any number, and each
  release may see another group. Its proposals never fall. They grow from one
  new message to the next while the range lasts, and once its last number was
  agreed or proposed, every new message gets that number.

    * `History.after` — the history of a list of calls.
    * `History.Numbered` — what every history has.
    * `History.proposal_of_new` — the number of a new message.
-/

import AgreedOrder.Proofs.Log
import AgreedOrder.Proofs.Sequencer.Release
import Mathlib.Data.List.Induction

namespace AgreedOrder.Sequencer

/-! ## Calls -/

/-- A call of one of the three functions that move a sequencer. -/
inductive Call where
  | ask (ask : Ask)
  | agreement (agreement : Agreement)
  | release (live : NodeId → Bool)

/-- A sequencer and what it was given and has returned, each in order. -/
structure History where
  sequencer : Sequencer
  asked : List Ask
  agreed : List Agreement
  proposed : List Proposal
  delivered : List Delivery

namespace History

def init (p : NodeId) : History := ⟨.init p, [], [], [], []⟩

/-- Make a call and note what it was given and what it returned. -/
def call (h : History) : Call → History
  | .ask ask =>
    { h with
      sequencer := (h.sequencer.onAsk ask).2
      asked := h.asked ++ [ask]
      proposed := h.proposed ++ [(h.sequencer.onAsk ask).1] }
  | .agreement a =>
    { h with
      sequencer := (h.sequencer.onAgreement a).2
      agreed := h.agreed ++ [a] }
  | .release live =>
    { h with
      sequencer := (h.sequencer.release live).2
      delivered := h.delivered ++ (h.sequencer.release live).1 }

/-- The history of a sequencer after some calls. -/
def after (p : NodeId) (calls : List Call) : History := calls.foldl call (init p)

@[simp] theorem after_nil (p : NodeId) : after p [] = init p := rfl

theorem after_append_singleton (p : NodeId) (calls : List Call) (c : Call) :
    after p (calls ++ [c]) = (after p calls).call c := by
  simp only [after, List.foldl_append, List.foldl_cons, List.foldl_nil]

/-! ## What every history has -/

/-- The sequencer is coherent, and the largest number proposed is what its name says. -/
structure Numbered (h : History) : Prop where
  coherent : h.sequencer.Coherent
  proposed_le : ∀ v ∈ h.proposed, v.number ≤ h.sequencer.maxProposed
  maxProposed_mem : h.sequencer.maxProposed = 0 ∨
    ∃ v ∈ h.proposed, v.number = h.sequencer.maxProposed

variable {h : History}

theorem Numbered.init (p : NodeId) : Numbered (init p) where
  coherent := init_coherent p
  proposed_le _ hv := absurd hv List.not_mem_nil
  maxProposed_mem := Or.inl rfl

theorem Numbered.ask (hn : Numbered h) (ask : Ask) : Numbered (h.call (.ask ask)) := by
  unfold History.call
  dsimp only
  cases hx : h.sequencer.held? ask.id with
  -- A held message gets the number that it was given before.
  | some x =>
    rw [onAsk_of_held hx]
    refine ⟨hn.coherent, fun v hv => ?_, ?_⟩
    · rcases mem_append_singleton.1 hv with hv | rfl
      · exact hn.proposed_le v hv
      · exact hn.coherent.proposed_le ask.id x hx
    · refine hn.maxProposed_mem.imp_right ?_
      rintro ⟨v, hv, hmax⟩
      exact ⟨v, List.mem_append_left _ hv, hmax⟩
  | none =>
    rw [hn.coherent.onAsk_of_new hx]
    refine ⟨hn.coherent.enlist ask, fun v hv => ?_, Or.inr ?_⟩
    · rcases mem_append_singleton.1 hv with hv | rfl
      · exact UInt64.le_trans (hn.proposed_le v hv) h.sequencer.maxProposed_le_nextNumber
      · exact UInt64.le_refl _
    · exact ⟨_, mem_append_singleton.2 (Or.inr rfl), rfl⟩

theorem Numbered.agreement (hn : Numbered h) (a : Agreement) :
    Numbered (h.call (.agreement a)) := by
  refine ⟨hn.coherent.onAgreement a, ?_, ?_⟩ <;> unfold History.call <;> dsimp only
  · rw [maxProposed_onAgreement]
    exact hn.proposed_le
  · rw [maxProposed_onAgreement]
    exact hn.maxProposed_mem

theorem Numbered.release (hn : Numbered h) (live : NodeId → Bool) :
    Numbered (h.call (.release live)) := by
  refine ⟨(hn.coherent.released live).coherent, ?_, ?_⟩ <;> unfold History.call <;> dsimp only
  · rw [maxProposed_release]
    exact hn.proposed_le
  · rw [maxProposed_release]
    exact hn.maxProposed_mem

theorem Numbered.call (hn : Numbered h) : ∀ c, Numbered (h.call c)
  | .ask ask => hn.ask ask
  | .agreement a => hn.agreement a
  | .release live => hn.release live

theorem numbered_after (p : NodeId) (calls : List Call) : Numbered (after p calls) := by
  induction calls using List.reverseRecOn with
  | nil => exact Numbered.init p
  | append_singleton calls c ih =>
    rw [after_append_singleton]
    exact ih.call c

/-! ## The number of a new message -/

theorem Numbered.number_of_new (hn : Numbered h) {ask : Ask}
    (hnew : h.sequencer.messages.get? ask.id = none) :
    (h.sequencer.onAsk ask).1.number = h.sequencer.nextNumber := by
  rw [hn.coherent.get?_messages, Option.map_eq_none_iff] at hnew
  rw [hn.coherent.onAsk_of_new hnew]

/-- The answer to an ask lies above the largest number agreed and above all that was proposed for
    other messages. -/
def Fresh (h : History) (ask : Ask) : Prop :=
  h.sequencer.maxAgreed < (h.sequencer.onAsk ask).1.number ∧
    ∀ v ∈ h.proposed, v.id ≠ ask.id → v.number < (h.sequencer.onAsk ask).1.number

instance (h : History) (ask : Ask) : Decidable (h.Fresh ask) :=
  inferInstanceAs (Decidable (_ ∧ _))

/-- A new message is never numbered below what was agreed or proposed before. Its number lies above
    all of these while the last number of the range is not among them, and is that last number from
    then on. -/
theorem proposal_of_new (p : NodeId) (calls : List Call) {ask : Ask}
    (hnew : (after p calls).sequencer.messages.get? ask.id = none) :
    let h := after p calls
    let number := (h.sequencer.onAsk ask).1.number
    (h.sequencer.maxAgreed ≤ number ∧ ∀ v ∈ h.proposed, v.number ≤ number) ∧
      (h.sequencer.maxAgreed ≠ 18446744073709551615 →
        (∀ v ∈ h.proposed, v.number ≠ 18446744073709551615) →
        h.sequencer.maxAgreed < number ∧ ∀ v ∈ h.proposed, v.number < number) ∧
      (h.sequencer.maxAgreed = 18446744073709551615 ∨
        (∃ v ∈ h.proposed, v.number = 18446744073709551615) →
        number = 18446744073709551615) := by
  have hn := numbered_after p calls
  generalize after p calls = h at hn hnew ⊢
  dsimp only
  rw [hn.number_of_new hnew]
  have hagreed := h.sequencer.maxAgreed_le_nextNumber
  have hproposed : ∀ v ∈ h.proposed, v.number ≤ h.sequencer.nextNumber := fun v hv =>
    UInt64.le_trans (hn.proposed_le v hv) h.sequencer.maxProposed_le_nextNumber
  refine ⟨⟨hagreed, hproposed⟩, fun hagreed_ne hproposed_ne => ?_, ?_⟩
  -- The largest number proposed is one of those proposed, so it is not the last one either.
  · have hmax : h.sequencer.maxProposed ≠ 18446744073709551615 := by
      rcases hn.maxProposed_mem with hzero | ⟨v, hv, hv_eq⟩
      · rw [hzero]
        decide
      · rw [← hv_eq]
        exact hproposed_ne v hv
    have hlt := lt_nextNumber_of_ne hagreed_ne hmax
    exact ⟨hlt.1, fun v hv => UInt64.lt_of_le_of_lt (hn.proposed_le v hv) hlt.2⟩
  · rintro (hlast | ⟨v, hv, hlast⟩)
    · exact eq_last_of_le (hlast ▸ hagreed)
    · exact eq_last_of_le (hlast ▸ hproposed v hv)

/-- An agreement on the number before the last one leaves room for one more message. -/
theorem proposal_of_new_before_last :
    let h := after "a" [.agreement ⟨"b", ⟨1⟩, 18446744073709551614⟩]
    h.sequencer.messages.get? ⟨2⟩ = none ∧
      h.sequencer.maxAgreed < (h.sequencer.onAsk ⟨"b", ⟨2⟩, []⟩).1.number := by
  have hnew : (after "a" [.agreement ⟨"b", ⟨1⟩, 18446744073709551614⟩]).sequencer.messages.get?
      (⟨"b", ⟨2⟩, []⟩ : Ask).id = none := by decide +kernel
  obtain ⟨-, hlt, -⟩ := proposal_of_new "a" [.agreement ⟨"b", ⟨1⟩, 18446744073709551614⟩] hnew
  exact ⟨hnew, (hlt (by decide +kernel) (by decide +kernel)).1⟩

/-- An agreement on the last number of the range uses the range up: the next two messages get that
    number both. -/
theorem not_fresh_at_last : ¬∀ (p : NodeId) (calls : List Call) (ask : Ask),
    (after p calls).sequencer.messages.get? ask.id = none → (after p calls).Fresh ask := by
  intro hfresh
  have h := hfresh "a" [.agreement ⟨"b", ⟨1⟩, 18446744073709551615⟩, .ask ⟨"b", ⟨2⟩, []⟩]
    ⟨"b", ⟨3⟩, []⟩ (by decide +kernel)
  revert h
  decide +kernel

end History

end AgreedOrder.Sequencer
