/-
  AgreedOrder.Proofs.Protocol.Numbering

  How far the numbers go. A member answers an ask with a number one above all
  that it has proposed or seen agreed, so that no number is larger than the
  count of the answers; and for each message there is at most one answer of
  each member. A group that has sent few messages has numbers left.

    * `Sequencer.highest` — the largest number that a member knows of.
    * `State.Within` — no number exceeds a bound.
    * `Reachable.numbersLeft_of_few` — few messages use few numbers.
-/

import AgreedOrder.Proofs.Protocol.Invariant

namespace AgreedOrder

namespace Sequencer

variable {s : Sequencer} {k : Nat}

/-- The largest number that a member has proposed or seen agreed. -/
def highest (s : Sequencer) : Nat := max s.maxAgreed.toNat s.maxProposed.toNat

theorem toNat_max (a b : UInt64) : (max a b).toNat = max a.toNat b.toNat := by
  rw [show max a b = if a ≤ b then b else a from rfl]
  split
  · rename_i hab
    rw [UInt64.le_iff_toNat_le] at hab
    omega
  · rename_i hab
    rw [UInt64.le_iff_toNat_le] at hab
    omega

theorem toNat_succSaturating_le (n : UInt64) : (succSaturating n).toNat ≤ n.toNat + 1 := by
  unfold succSaturating
  split
  · omega
  · rw [UInt64.toNat_add, UInt64.toNat_one]
    omega

theorem nextNumber_le (s : Sequencer) : s.nextNumber.toNat ≤ s.highest + 1 := by
  have hsucc := toNat_succSaturating_le (max s.maxAgreed s.maxProposed)
  rw [toNat_max] at hsucc
  exact hsucc

/-- What a member proposes next is the largest number that it knows of. -/
theorem highest_enlist_le (s : Sequencer) (ask : Ask) :
    (s.enlist ask).highest ≤ s.highest + 1 := by
  have hnext := s.nextNumber_le
  simp only [highest, enlist] at hnext ⊢
  omega

theorem highest_onAgreement (s : Sequencer) (a : Agreement) :
    (s.onAgreement a).2.highest = max s.highest a.number.toNat := by
  simp only [highest, maxAgreed_onAgreement, maxProposed_onAgreement, toNat_max]
  omega

theorem highest_release (live : NodeId → Bool) (s : Sequencer) :
    (s.release live).2.highest = s.highest := by
  simp only [highest, maxAgreed_release, maxProposed_release]

end Sequencer

namespace Protocol

open Sequencer

variable {g : Roster} {s s' : State} {p : NodeId} {k : Nat}

/-! ## No number above the count of answers -/

/-- No number that was answered, and none that a member knows of, exceeds a bound. -/
structure State.Within (s : State) (k : Nat) : Prop where
  answered : ∀ v ∈ s.answered, v.number.toNat ≤ k
  highest : ∀ p, (s.members p).sequencer.highest ≤ k

theorem within_init (g : Roster) : (State.init g).Within 0 :=
  ⟨nofun, fun _ => Nat.le_refl 0⟩

/-- A step at which nobody answers, and nobody hears of a larger number. -/
theorem State.Within.congr (h : s.Within k) (hanswered : s'.answered = s.answered)
    (hmembers : ∀ p, (s'.members p).sequencer.highest = (s.members p).sequencer.highest) :
    s'.Within k := by
  refine ⟨fun v hv => h.answered v (hanswered ▸ hv), fun p => ?_⟩
  rw [hmembers]
  exact h.highest p

/-- A member that knows of no larger number than the bound. -/
theorem State.Within.setMember (h : s.Within k) {m : Member} (hm : m.sequencer.highest ≤ k)
    (q : NodeId) : ((s.setMember p m).members q).sequencer.highest ≤ k := by
  by_cases hq : q = p
  · rw [hq, State.members_setMember_self]
    exact hm
  · rw [State.members_setMember_of_ne _ _ hq]
    exact h.highest q

/-- A member's answer is one above what it knew of. -/
theorem State.Within.takeAsk (h : s.Within k) (hi : Invariant g s) {ask : Ask}
    (underWay : (p, ask) ∈ s.asks) : (s.takeAsk p ask).Within (k + 1) := by
  have hanswer := hi.answer_eq underWay
  have hp := h.highest p
  have hwider : s.Within (k + 1) :=
    ⟨fun v hv => Nat.le_succ_of_le (h.answered v hv), fun q => Nat.le_succ_of_le (h.highest q)⟩
  refine ⟨fun v hv => ?_, fun q => ?_⟩
  · rcases mem_append_singleton.1 hv with hv | rfl
    · exact hwider.answered v hv
    · have hnext := (s.members p).sequencer.nextNumber_le
      rw [hanswer]
      dsimp only
      omega
  · refine hwider.setMember (p := p) ?_ q
    have hhighest := highest_enlist_le (s.members p).sequencer ask
    rw [hanswer]
    show (((s.members p).sequencer.enlist ask).release _).2.highest ≤ k + 1
    rw [highest_release]
    omega

/-- An agreement is on a number that somebody answered. -/
theorem State.Within.takeAgreement (h : s.Within k) (hi : Invariant g s) {a : Agreement}
    (underWay : (p, a) ∈ s.agreements) : (s.takeAgreement p a).Within k := by
  have hannounced := (hi.announcing.handing.mem p a underWay).2
  have hnumber := h.answered _ (hi.decided.winner_mem a hannounced)
  have hp := h.highest p
  refine ⟨h.answered, fun q => ?_⟩
  refine h.setMember (p := p) ?_ q
  show (((s.members p).sequencer.onAgreement a).2.release _).2.highest ≤ k
  rw [highest_release, highest_onAgreement]
  exact Nat.max_le.2 ⟨hp, hnumber⟩

theorem highest_watchGroup (m : Member) : m.watchGroup.sequencer.highest = m.sequencer.highest := by
  unfold Member.watchGroup
  split
  · rfl
  · exact highest_release _ _

/-- With each answer the bound grows by one. -/
theorem State.Within.step (h : s.Within s.answered.length) (hi : Invariant g s)
    (next : Step g s s') : s'.Within s'.answered.length := by
  have hset {p : NodeId} {m : Member}
      (hm : m.sequencer.highest = (s.members p).sequencer.highest) :=
    State.setMember_congr (fun m => m.sequencer.highest) hm
  cases next with
  | @takeAsk p ask _ underWay =>
    have hlength : (s.takeAsk p ask).answered.length = s.answered.length + 1 :=
      List.length_append
    rw [hlength]
    exact h.takeAsk hi underWay
  | takeAgreement _ underWay => exact h.takeAgreement hi underWay
  | submit => exact h.congr rfl (hset rfl)
  | takeProposal => exact h.congr rfl (hset rfl)
  | goOn => exact h.congr rfl (hset rfl)
  | announce => exact h.congr rfl (hset rfl)
  | watch => exact h.congr rfl (hset (highest_watchGroup _))
  | crash => exact h.congr rfl (hset rfl)
  | eject => exact h.congr rfl (hset rfl)
  | loseAsk | loseAgreement | dropAsk | dropAgreement | dropProposal =>
    exact h.congr rfl fun _ => rfl

/-- A bound below the last number leaves numbers. -/
theorem State.Within.numbersLeft (h : s.Within k) (hk : k < 18446744073709551615) :
    s.NumbersLeft g := by
  intro p _ hlast
  have hp := h.highest p
  simp only [Sequencer.highest, hlast] at hp
  have hvalue : (18446744073709551615 : UInt64).toNat = 18446744073709551615 := rfl
  omega

/-! ## Few answers -/

/-- What is asked is asked of each member, and each has it still to answer, or has answered it, or
    never will. -/
theorem Step.answered_length_le (next : Step g s s')
    (h : s.asks.length + s.answered.length ≤ s.asked.length * g.ids.length) :
    s'.asks.length + s'.answered.length ≤ s'.asked.length * g.ids.length := by
  cases next with
  | submit =>
    simp only [State.submit, State.setMember, List.length_append, List.length_map,
      List.length_singleton, Nat.add_mul, Nat.one_mul]
    omega
  | takeAsk _ underWay =>
    have hless := List.length_erase_of_mem underWay
    have hpos := List.length_pos_of_mem underWay
    simp only [State.takeAsk, State.setMember, List.length_append, List.length_singleton]
    omega
  | loseAsk => exact Nat.le_trans (Nat.add_le_add_right (List.length_filter_le _ _) _) h
  | dropAsk => exact Nat.le_trans (Nat.add_le_add_right List.length_erase_le _) h
  | takeProposal | goOn | announce | takeAgreement | watch | crash | eject => exact h
  | loseAgreement | dropAgreement | dropProposal => exact h

theorem Reachable.answered_length_le (h : Reachable g s) :
    s.asks.length + s.answered.length ≤ s.asked.length * g.ids.length := by
  induction h with
  | init => exact Nat.zero_le _
  | step _ next ih => exact next.answered_length_le ih

theorem Step.answered_length_mono (next : Step g s s') :
    s.answered.length ≤ s'.answered.length := by
  cases next with
  | takeAsk => exact List.length_append ▸ Nat.le_add_right _ _
  | submit | takeProposal | goOn | announce | takeAgreement | watch => exact Nat.le_refl _
  | crash | eject | loseAsk | loseAgreement | dropAsk | dropAgreement | dropProposal =>
    exact Nat.le_refl _

/-- Few answers use few numbers. -/
theorem Reachable.within (h : Reachable g s) (hfew : s.answered.length < 18446744073709551615) :
    s.Within s.answered.length := by
  induction h with
  | init => exact within_init g
  | step reachable next ih =>
    have hmono := next.answered_length_mono
    have hwithin := ih (by omega)
    exact hwithin.step (reachable.invariant (hwithin.numbersLeft (by omega))) next

/-- A group that has sent few messages has numbers left. -/
theorem Reachable.numbersLeft_of_few (h : Reachable g s)
    (hfew : s.asked.length * g.ids.length < 18446744073709551615) : s.NumbersLeft g := by
  have hanswers := h.answered_length_le
  exact (h.within (by omega)).numbersLeft (by omega)

end Protocol

end AgreedOrder
