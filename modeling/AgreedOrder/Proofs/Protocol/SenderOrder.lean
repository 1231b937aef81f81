/-
  AgreedOrder.Proofs.Protocol.SenderOrder

  Two messages that every member answers in the same order. The numbers that a
  member proposes rise, so each member proposes a smaller one for the first
  message. What is agreed for the first is a number that some member proposed
  for it; the same member proposed a larger one for the second, and what is
  agreed for that is no smaller. So the first one is delivered before.

    * `Rising` — the numbers that members propose.
    * `State.AnswersFirst` — members answer one message before another.
    * `Invariant.agreement_lt` — the numbers that are agreed.
    * `Invariant.delivered_first` — the order of delivery.
-/

import AgreedOrder.Proofs.Protocol.TotalOrder

namespace AgreedOrder.Protocol

open Sequencer

variable {g : Roster} {s s' : State} {p : NodeId} {first second : MessageId} {n : UInt64}

/-! ## Rising numbers -/

/-- The numbers that each member proposes rise, up to the last one that it knows of. -/
structure Rising (s : State) : Prop where
  le : ∀ v ∈ s.answered, v.number ≤ (s.members v.voter).sequencer.maxProposed
  pairwise : s.answered.Pairwise fun v w => v.voter = w.voter → v.number < w.number

theorem rising_init (g : Roster) : Rising (State.init g) := ⟨nofun, List.Pairwise.nil⟩

/-- A step at which nobody answers. -/
theorem Rising.congr (h : Rising s) (next : Step g s s') (hanswered : s'.answered = s.answered) :
    Rising s' := by
  refine ⟨fun v hv => ?_, hanswered ▸ h.pairwise⟩
  rw [hanswered] at hv
  exact UInt64.le_trans (h.le v hv) (next.maxProposed_le v.voter)

/-- A member answers with a number above all that it proposed. -/
theorem Rising.takeAsk (h : Rising s) (hi : Invariant g s) {ask : Ask}
    (underWay : (p, ask) ∈ s.asks) (next : Step g s (s.takeAsk p ask))
    (hleft : (s.takeAsk p ask).NumbersLeft g) : Rising (s.takeAsk p ask) := by
  have hanswer := hi.answer_eq underWay
  have hmax : ((s.takeAsk p ask).members p).sequencer.maxProposed
      = (s.members p).sequencer.nextNumber := by
    rw [show (s.takeAsk p ask).members p = ((s.members p).answer ask).2 from
      s.members_setMember_self .., hanswer]
    exact maxProposed_release _ _
  have hlast := hleft p (hi.asking.handing.mem p ask underWay).1
  rw [hmax] at hlast
  have hanswered : (s.takeAsk p ask).answered
      = s.answered ++ [⟨p, ask.id, (s.members p).sequencer.nextNumber⟩] := by
    rw [State.takeAsk, hanswer]
  refine ⟨fun v hv => ?_, ?_⟩
  · rw [hanswered] at hv
    rcases mem_append_singleton.1 hv with hv | rfl
    · exact UInt64.le_trans (h.le v hv) (next.maxProposed_le v.voter)
    · exact UInt64.le_of_eq hmax.symm
  · rw [hanswered, List.pairwise_append]
    refine ⟨h.pairwise, List.pairwise_singleton _ _, fun v hv w hw hvoter => ?_⟩
    obtain rfl := List.mem_singleton.1 hw
    have hle := h.le v hv
    rw [hvoter] at hle
    exact UInt64.lt_of_le_of_lt hle (lt_nextNumber hlast).2

theorem Rising.step (h : Rising s) (hi : Invariant g s) (next : Step g s s')
    (hleft : s'.NumbersLeft g) : Rising s' := by
  have hnext := next
  cases next with
  | takeAsk _ underWay => exact h.takeAsk hi underWay hnext hleft
  | submit | takeProposal | goOn | announce | takeAgreement => exact h.congr hnext rfl
  | watch | crash | eject => exact h.congr hnext rfl
  | loseAsk | loseAgreement | dropAsk | dropAgreement | dropProposal => exact h.congr hnext rfl

/-- As long as numbers are left, the numbers that each member proposes rise. -/
theorem Reachable.rising (h : Reachable g s) (hleft : s.NumbersLeft g) : Rising s := by
  induction h with
  | init => exact rising_init g
  | step reachable next ih =>
    have hbefore := next.numbersLeft hleft
    exact (ih hbefore).step (reachable.invariant hbefore) next hleft

/-! ## One message before another -/

/-- A member that answers the ask for the second of two messages has answered that for the first one
    before. -/
def State.AnswersFirst (s : State) (first second : MessageId) : Prop :=
  ∀ p, Leads (p, first) (p, second) (s.answered.map fun v => (v.voter, v.id))

theorem Rising.exists_lt (h : Rising s) (hfirst : s.AnswersFirst first second)
    (hn : ⟨p, second, n⟩ ∈ s.answered) : ∃ k, k < n ∧ ⟨p, first, k⟩ ∈ s.answered := by
  obtain ⟨before, after, hsplit⟩ := List.append_of_mem hn
  have hmem := hfirst p _ (after.map fun v => (v.voter, v.id))
    (by rw [hsplit, List.map_append]; rfl)
  obtain ⟨⟨voter, id, k⟩, hv, heq⟩ := List.mem_map.1 hmem
  obtain ⟨rfl, rfl⟩ := Prod.mk.inj heq
  have hpairwise := h.pairwise
  rw [hsplit, List.pairwise_append] at hpairwise
  refine ⟨k, hpairwise.2.2 _ hv _ (List.mem_cons_self ..) rfl, ?_⟩
  exact hsplit ▸ List.mem_append_left _ hv

/-- The number that is agreed for the first message is smaller than the one for the second. -/
theorem Invariant.agreement_lt (h : Invariant g s) (hr : Rising s)
    (hrun : ∀ q ∈ g.ids, s.Running q) (hfirst : s.AnswersFirst first second) {a b : Agreement}
    (ha : a ∈ s.announced) (hb : b ∈ s.announced) (haid : a.id = first) (hbid : b.id = second) :
    a.number < b.number := by
  subst haid hbid
  have hwinner := h.decided.winner_mem a ha
  have hmember := h.asking.voter_mem _ hwinner
  obtain ⟨n, hle, hn⟩ := h.decided.covered b hb a.voter hmember (Or.inl (hrun _ hmember))
  obtain ⟨k, hlt, hk⟩ := hr.exists_lt hfirst hn
  rw [h.asking.number_eq hwinner hk]
  exact UInt64.lt_of_lt_of_le hlt hle

/-- Who has delivered the second message does not hold the first one. -/
theorem Invariant.held?_first (h : Invariant g s) (hr : Rising s)
    (hrun : ∀ q ∈ g.ids, s.Running q) (hfirst : s.AnswersFirst first second) {d : Delivery}
    (hd : d ∈ s.delivered p) (hid : d.id = second) :
    (s.members p).sequencer.held? first = none := by
  have hplaced := h.placed p
  have htaken := hplaced.delivered_taken d hd
  have hannounced := (h.announcing.taken_mem p _ htaken).2
  cases hx : (s.members p).sequencer.held? first with
  | none => rfl
  | some x =>
    -- What is held stands behind what was delivered, but has a smaller number.
    have hbehind := hplaced.before_held d hd first x hx
    refine absurd hbehind (HoldEntry.not_lt_of_lt (HoldEntry.lt_of_number_lt ?_))
    cases hagreed : x.message.agreed with
    | true =>
      have hx' := hplaced.held_agreed first x hx hagreed
      exact h.agreement_lt hr hrun hfirst (h.announcing.taken_mem p _ hx').2 hannounced rfl hid
    | false =>
      obtain ⟨n, hle, hn⟩ := h.answered_of_taken htaken
      obtain ⟨k, hlt, hk⟩ := hr.exists_lt hfirst (hid ▸ hn)
      rw [((hplaced.coherent.fits first x hx).of_open hagreed).1,
        h.asking.number_eq (hplaced.held_answered first x hx) hk]
      exact UInt64.lt_of_lt_of_le hlt hle

/-- Who has delivered the second message has delivered the first one before. -/
theorem Invariant.delivered_first (h : Invariant g s) (hr : Rising s)
    (hrun : ∀ q ∈ g.ids, s.Running q) (hfirst : s.AnswersFirst first second) :
    Leads first second (s.deliveredIds p) := by
  intro before after hsplit
  obtain ⟨l, rest, hdelivered, rfl, hrest⟩ := List.map_eq_append_iff.1 hsplit
  obtain ⟨d, l', rfl, hid, -⟩ := List.map_eq_cons_iff.1 hrest
  have hd : d ∈ s.delivered p := hdelivered ▸ List.mem_append_right _ (List.mem_cons_self ..)
  have hplaced := h.placed p
  have htaken := hplaced.delivered_taken d hd
  obtain ⟨n, -, hn⟩ := h.answered_of_taken htaken
  obtain ⟨k, -, hk⟩ := hr.exists_lt hfirst (hid ▸ hn)
  rcases hplaced.kept first ⟨k, hk⟩ with ⟨x, hx⟩ | ⟨e, he, heid⟩ | ⟨ask, hask, -, hdead⟩
  · rw [h.held?_first hr hrun hfirst hd hid] at hx
    cases hx
  · have hlt : e.number < d.number := by
      have hannounced := (h.announcing.taken_mem p _ (hplaced.delivered_taken e he)).2
      exact h.agreement_lt hr hrun hfirst hannounced (h.announcing.taken_mem p _ htaken).2 heid hid
    have hbefore : e.Before d := HoldEntry.lt_of_number_lt hlt
    -- What comes after the second message does not stand before it.
    have hreleased : (s.members p).released = l ++ d :: l' := hdelivered
    have hsorted := hplaced.sorted
    rw [hreleased, List.pairwise_append, List.pairwise_cons] at hsorted
    rw [hreleased, List.mem_append, List.mem_cons] at he
    rcases he with he | rfl | he
    · exact List.mem_map.2 ⟨e, he, heid⟩
    · exact absurd hbefore (Delivery.not_before_self e)
    · exact absurd hbefore (hsorted.2.1.1 e he).not_symm
  -- Nobody has left.
  · have hsender := h.asking.sender_mem ask hask
    rw [h.live.isLive_of_running p _ hsender (hrun _ hsender)] at hdead
    cases hdead

end AgreedOrder.Protocol
