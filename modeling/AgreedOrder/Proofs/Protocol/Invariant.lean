/-
  AgreedOrder.Proofs.Protocol.Invariant

  What holds in every state that a group can come to, as long as numbers are
  left: the relations of the other modules of this folder, kept together by
  each step.

    * `Invariant` — all of them.
    * `Reachable.invariant` — every reachable state has them.
-/

import AgreedOrder.Proofs.Protocol.Placement
import AgreedOrder.Proofs.Protocol.Voting

namespace AgreedOrder.Protocol

open Json Sequencer

variable {g : Roster} {s s' : State}

/-- Who is live, what was said, and where each member stands. -/
structure Invariant (g : Roster) (s : State) : Prop where
  live : LiveMaps g s.members
  asking : Asking g s.asked s.asks s.answered
  announcing : Announcing g s.announced s.agreements s.taken
  polling : Polling s.asked s.announced s.members
  counting : Counting s.answered s.proposals s.members
  decided : Decided g s.Running s.answered s.announced s.taken
  placed : ∀ p, Placed s.asked s.answered s.taken p (s.members p)

theorem Invariant.init (g : Roster) : Invariant g (State.init g) where
  live := .init g
  asking := .init g
  announcing := .init g
  polling := .init g
  counting := .init g
  decided := ⟨fun _ ha => absurd ha List.not_mem_nil, fun _ ha => absurd ha List.not_mem_nil⟩
  placed p := .init p g.nodes g.capacity

/-! ## Facts that several steps need -/

/-- An agreement that a member was handed is for a message it has answered. -/
theorem Invariant.answered_of_taken (h : Invariant g s) {p : NodeId} {a : Agreement}
    (ha : (p, a) ∈ s.taken) : ∃ n, n ≤ a.number ∧ ⟨p, a.id, n⟩ ∈ s.answered := by
  obtain ⟨hp, hannounced⟩ := h.announcing.taken_mem p a ha
  exact h.decided.covered a hannounced p hp (Or.inr ha)

/-- A message whose ask is under way to a member is not held there. -/
theorem Invariant.held?_eq_none (h : Invariant g s) {p : NodeId} {ask : Ask}
    (hask : (p, ask) ∈ s.asks) : (s.members p).sequencer.held? ask.id = none := by
  cases hx : (s.members p).sequencer.held? ask.id with
  | none => rfl
  | some x =>
    have hanswered := (h.placed p).held_answered ask.id x hx
    exact absurd ⟨_, hanswered⟩ (h.asking.handing.fresh p ask hask)

/-- A member answers an ask with its next number. -/
theorem Invariant.answer_eq (h : Invariant g s) {p : NodeId} {ask : Ask}
    (hask : (p, ask) ∈ s.asks) : (s.members p).answer ask =
      (⟨p, ask.id, (s.members p).sequencer.nextNumber⟩,
        Member.release
          { s.members p with sequencer := (s.members p).sequencer.enlist ask }) := by
  unfold Member.answer
  rw [(h.placed p).coherent.onAsk_of_new (h.held?_eq_none hask), (h.placed p).self_eq]

/-- A step at one member that says nothing and moves no message keeps where all members stand. -/
theorem Placed.setMember {asked asked' : List Ask} {answered : List Proposal}
    {taken : List (NodeId × Agreement)}
    (h : ∀ q, Placed asked answered taken q (s.members q)) (hasked : ∀ a ∈ asked, a ∈ asked')
    {p : NodeId} {m : Member} (hm : Placed asked' answered taken p m) (q : NodeId) :
    Placed asked' answered taken q ((s.setMember p m).members q) := by
  by_cases hq : q = p
  · rw [hq, State.members_setMember_self]
    exact hm
  · rw [s.members_setMember_of_ne m hq]
    exact (h q).frame hasked (fun _ _ => Iff.rfl) (fun _ => Iff.rfl) rfl rfl fun _ hlive => hlive

/-- What was decided stays so while nobody stops. -/
theorem Decided.congr {answered : List Proposal} {announced : List Agreement}
    {taken : List (NodeId × Agreement)} (h : Decided g s.Running answered announced taken)
    (hstopped : ∀ q, (s'.members q).stopped = (s.members q).stopped) :
    Decided g s'.Running answered announced taken :=
  h.mono (fun q => (State.running_congr hstopped q).1) fun _ hv => hv

/-- A step at one member that says nothing keeps the invariant, if it keeps where the member
    stands, its polls and its votes. -/
theorem Invariant.setMember (h : Invariant g s) {p : NodeId} {m : Member}
    (hpeers : m.peers = (s.members p).peers) (hstopped : m.stopped = (s.members p).stopped)
    (hids : pollIds m = pollIds (s.members p))
    (hsound : ∀ c ∈ m.collectors, Sound s.answered c)
    (hplaced : Placed s.asked s.answered s.taken p m) : Invariant g (s.setMember p m) where
  live := h.live.setMember hpeers hstopped
  asking := h.asking
  announcing := h.announcing
  polling := h.polling.congr (State.setMember_congr pollIds hids)
  counting := h.counting.setMember hsound
  decided := h.decided.congr (State.setMember_congr Member.stopped hstopped)
  placed := Placed.setMember h.placed (fun _ ha => ha) hplaced

/-! ## Each step -/

theorem Invariant.submit (h : Invariant g s) {ask : Ask} (hmember : ask.sender ∈ g.ids)
    (hfresh : ∀ a ∈ s.asked, a.id ≠ ask.id) : Invariant g (s.submit g ask) where
  live := h.live.setMember rfl rfl
  asking := h.asking.submit hmember hfresh
  announcing := h.announcing
  polling := h.polling.submit hfresh
  counting := h.counting.setMember fun c hc => by
    rcases mem_append_singleton.1 hc with hc | rfl
    · exact h.counting.sound _ c hc
    · exact ⟨fun v hv => absurd hv List.not_mem_nil, fun q n hq => nomatch hq⟩
  decided := h.decided.congr (State.setMember_congr Member.stopped rfl)
  placed := by
    have hgrow : ∀ a ∈ s.asked, a ∈ s.asked ++ [ask] := fun a ha => List.mem_append_left _ ha
    exact Placed.setMember h.placed hgrow ((h.placed ask.sender).frame hgrow (fun _ _ => Iff.rfl)
      (fun _ => Iff.rfl) rfl rfl fun _ hlive => hlive)

/-- Where a member stands with a message it was asked for, before anything is released. -/
theorem Invariant.placed_enlist (h : Invariant g s) {p : NodeId} {ask : Ask}
    (hask : (p, ask) ∈ s.asks) (hleft : (s.takeAsk p ask).NumbersLeft g) :
    Placed s.asked (s.answered ++ [⟨p, ask.id, (s.members p).sequencer.nextNumber⟩]) s.taken p
      { s.members p with sequencer := (s.members p).sequencer.enlist ask } := by
  obtain ⟨hp, hasked⟩ := h.asking.handing.mem p ask hask
  -- No agreement was handed for a message that is not answered yet.
  have htaken : ∀ a, (p, a) ∈ s.taken → a.id ≠ ask.id := by
    intro a ha hid
    obtain ⟨n, -, hn⟩ := h.answered_of_taken ha
    exact h.asking.handing.fresh p ask hask ⟨n, hid ▸ hn⟩
  -- The number that is given out is not the last one.
  have hmax := hleft p hp
  rw [show (s.takeAsk p ask).members = (s.setMember p ((s.members p).answer ask).2).members
    from rfl, State.members_setMember_self, h.answer_eq hask] at hmax
  have hreleased := ((h.placed p).coherent.enlist ask).released (s.members p).peers.isLive
  refine (h.placed p).enlist hasked htaken fun heq => hmax ?_
  exact hreleased.maxProposed_eq.trans heq

theorem Invariant.takeAsk (h : Invariant g s) {p : NodeId} {ask : Ask}
    (hask : (p, ask) ∈ s.asks) (hleft : (s.takeAsk p ask).NumbersLeft g) :
    Invariant g (s.takeAsk p ask) := by
  have hanswer := h.answer_eq hask
  have hgrow : ∀ v ∈ s.answered, v ∈ s.answered ++ [((s.members p).answer ask).1] :=
    fun v hv => List.mem_append_left _ hv
  have hplaced : Placed s.asked (s.answered ++ [((s.members p).answer ask).1]) s.taken p
      ((s.members p).answer ask).2 := by
    rw [hanswer]
    exact (h.placed_enlist hask hleft).release
  refine ⟨h.live.setMember rfl rfl, ?_, h.announcing, ?_, ?_, ?_, fun q => ?_⟩
  · show Asking g s.asked _ (s.answered ++ [((s.members p).answer ask).1])
    rw [congrArg Prod.fst hanswer]
    exact h.asking.answer hask _
  · exact h.polling.congr (State.setMember_congr pollIds rfl)
  · refine h.counting.mono hgrow (fun q v hv => ?_) (State.setMember_congr Member.collectors rfl)
    rcases List.mem_append.1 hv with hv | hv
    · exact hgrow v (h.counting.proposals_mem q v hv)
    · split at hv
      · cases List.mem_singleton.1 hv
        exact List.mem_append_right _ (List.mem_singleton_self _)
      · exact absurd hv List.not_mem_nil
  · exact (h.decided.mono (fun _ hrun => hrun) hgrow).congr
      (State.setMember_congr Member.stopped rfl)
  -- The member that answers has a new message, and the others see only that it answered.
  · by_cases hq : q = p
    · rw [hq]
      show Placed _ _ _ p ((s.setMember p _).members p)
      rw [State.members_setMember_self]
      exact hplaced
    · show Placed _ _ _ q ((s.setMember p _).members q)
      rw [s.members_setMember_of_ne _ hq]
      refine (h.placed q).frame (fun _ ha => ha) (fun id n => ?_) (fun _ => Iff.rfl) rfl rfl
        fun _ hlive => hlive
      show _ ∈ s.answered ++ _ ↔ _
      rw [hanswer]
      exact answered_append_iff (Or.inl hq)

theorem Invariant.takeProposal (h : Invariant g s) {p : NodeId} {v : Proposal}
    (hv : (p, v) ∈ s.proposals) : Invariant g (s.takeProposal p v) := by
  have hanswered := h.counting.proposals_mem p v hv
  have hcounting := h.counting.collect (p := p) hanswered
  refine ⟨h.live.setMember rfl rfl, h.asking, h.announcing,
    h.polling.congr (State.setMember_congr pollIds (pollIds_collect _ v)),
    ⟨fun q w hw => h.counting.proposals_mem q w (List.mem_of_mem_erase hw), hcounting.sound⟩,
    h.decided.congr (State.setMember_congr Member.stopped rfl), ?_⟩
  exact Placed.setMember h.placed (fun _ ha => ha) ((h.placed p).congr rfl rfl fun _ hlive => hlive)

/-- Where a member stands does not depend on the votes it collects. -/
theorem Invariant.placed_collectors (h : Invariant g s) (p : NodeId) (cs : List Collector) :
    Placed s.asked s.answered s.taken p { s.members p with collectors := cs } :=
  (h.placed p).congr rfl rfl fun _ hlive => hlive

theorem Invariant.goOn (h : Invariant g s) {p : NodeId} {c c' : Collector}
    {before after : List Collector} (hc : (s.members p).collectors = before ++ c :: after)
    (hadvance : c.advance (s.members p).peers.liveIds (s.members p).peers.changes = (false, c')) :
    Invariant g (s.setCollectors p (before ++ c' :: after)) := by
  have hcounts := c.advance_counts (s.members p).peers.liveIds (s.members p).peers.changes
  have hopen := Collector.advance_of_open (c := c) (by rw [hadvance])
  rw [hadvance] at hcounts hopen
  have hmem : c ∈ (s.members p).collectors := (mem_iff_of_split hc).2 (Or.inl rfl)
  refine h.setMember rfl rfl ?_ (fun d hd => ?_) (h.placed_collectors p _)
  · rw [pollIds, pollIds, hc, List.map_append, List.map_append, List.map_cons, List.map_cons,
      hcounts.id_eq]
  · rcases (mem_iff_of_split rfl).1 hd with rfl | hd
    · exact (h.counting.sound p c hmem).of_counts hcounts hopen.inbox_eq
    · exact h.counting.sound p d ((mem_iff_of_split hc).2 (Or.inr hd))

theorem Invariant.announce (h : Invariant g s) {p : NodeId} {c c' : Collector}
    {before after : List Collector} (hc : (s.members p).collectors = before ++ c :: after)
    (hadvance : c.advance (s.members p).peers.liveIds (s.members p).peers.changes = (true, c'))
    {a : Agreement} (ha : c'.votes.agreement = some a) :
    Invariant g (s.announce g p (before ++ after) a) := by
  have hmem : c ∈ (s.members p).collectors := (mem_iff_of_split hc).2 (Or.inl rfl)
  have hcounts := c.advance_counts (s.members p).peers.liveIds (s.members p).peers.changes
  rw [hadvance] at hcounts
  have hid : a.id = c.votes.id := (Votes.agreement_eq_some ha).1.trans hcounts.id_eq
  -- A message with a poll has no agreement yet.
  have hfresh : ∀ b ∈ s.announced, b.id ≠ a.id := by
    intro b hb
    rw [hid]
    exact h.polling.undecided p c.votes.id (List.mem_map_of_mem hmem) b hb
  -- All running members are live at the member that announces.
  have hlive : ∀ q ∈ g.ids, s.Running q → q ∈ (s.members p).peers.liveIds :=
    fun q hq hrun => ((s.members p).peers.mem_liveIds q).2 (h.live.isLive_of_running p q hq hrun)
  obtain ⟨hdecided, -⟩ := h.decided.announce (h.counting.sound p c hmem) hadvance hlive ha
    fun q hq => hfresh a (h.announcing.taken_mem q a hq).2 rfl
  refine ⟨h.live.setMember rfl rfl, h.asking, h.announcing.announce hfresh,
    h.polling.announce h.asking hc hid, h.counting.setMember fun d hd => ?_,
    hdecided.congr (State.setMember_congr Member.stopped rfl), ?_⟩
  · exact h.counting.sound p d ((mem_iff_of_split hc).2 (Or.inr hd))
  · exact Placed.setMember h.placed (fun _ hb => hb) (h.placed_collectors p _)

/-- Where a member stands with an agreement it was handed, before anything is released. -/
theorem Invariant.placed_onAgreement (h : Invariant g s) {p : NodeId} {a : Agreement}
    (hrun : s.Running p) (ha : (p, a) ∈ s.agreements) :
    Placed s.asked s.answered (s.taken ++ [(p, a)]) p
      { s.members p with sequencer := ((s.members p).sequencer.onAgreement a).2 } := by
  obtain ⟨hp, hannounced⟩ := h.announcing.handing.mem p a ha
  have hnew := h.announcing.handing.fresh p a ha
  -- A message has only one agreement, and it is handed over once.
  have hfirst : ∀ b, (p, b) ∈ s.taken → b.id ≠ a.id := by
    intro b hb hid
    have heq := h.announcing.agreement_eq (h.announcing.taken_mem p b hb).2 hannounced hid
    exact hnew (heq ▸ hb)
  -- The agreement covers the number that this member had proposed.
  refine (h.placed p).agree hfirst fun n hn => ?_
  obtain ⟨k, hle, hk⟩ := h.decided.covered a hannounced p hp (Or.inl hrun)
  rw [h.asking.number_eq hn hk]
  exact hle

theorem Invariant.takeAgreement (h : Invariant g s) {p : NodeId} {a : Agreement}
    (hrun : s.Running p) (ha : (p, a) ∈ s.agreements) : Invariant g (s.takeAgreement p a) := by
  have hadopt : Placed s.asked s.answered (s.taken ++ [(p, a)]) p ((s.members p).adopt a) :=
    (h.placed_onAgreement hrun ha).release
  refine ⟨h.live.setMember rfl rfl, h.asking, h.announcing.take ha,
    h.polling.congr (State.setMember_congr pollIds rfl),
    h.counting.mono (fun _ hv => hv) h.counting.proposals_mem
      (State.setMember_congr Member.collectors rfl),
    (h.decided.take hrun).congr (State.setMember_congr Member.stopped rfl), fun q => ?_⟩
  -- Only this member is handed the agreement.
  by_cases hq : q = p
  · rw [hq]
    show Placed _ _ _ p ((s.setMember p _).members p)
    rw [State.members_setMember_self]
    exact hadopt
  · show Placed _ _ _ q ((s.setMember p _).members q)
    rw [s.members_setMember_of_ne _ hq]
    refine (h.placed q).frame (fun _ hb => hb) (fun _ _ => Iff.rfl) (fun b => ?_) rfl rfl
      fun _ hlive => hlive
    show _ ∈ s.taken ++ _ ↔ _
    rw [mem_append_singleton, or_iff_left fun heq => hq (Prod.mk.inj heq).1]

theorem Invariant.watch (h : Invariant g s) (p : NodeId) :
    Invariant g (s.setMember p (s.members p).watchGroup) := by
  unfold Member.watchGroup
  split
  · exact h.setMember rfl rfl rfl (h.counting.sound p) (h.placed p)
  · refine h.setMember rfl rfl rfl (h.counting.sound p) (Placed.release ?_)
    exact (h.placed p).congr rfl rfl fun _ hlive => hlive

theorem Invariant.crash (h : Invariant g s) (p : NodeId) :
    Invariant g (s.setMember p (s.members p).stop) := by
  refine ⟨h.live.crash p, h.asking, h.announcing,
    h.polling.congr (State.setMember_congr pollIds rfl), h.counting.setMember (h.counting.sound p),
    h.decided.mono (fun _ => State.running_of_stop) fun _ hv => hv, ?_⟩
  exact Placed.setMember h.placed (fun _ ha => ha)
    ((h.placed p).congr rfl rfl fun _ hlive => hlive)

theorem Invariant.eject (h : Invariant g s) {p q : NodeId} (crashed : ¬s.Running q) :
    Invariant g (s.setMember p ((s.members p).eject q).2) := by
  refine ⟨h.live.eject crashed, h.asking, h.announcing,
    h.polling.congr (State.setMember_congr pollIds rfl), h.counting.setMember (h.counting.sound p),
    h.decided.congr (State.setMember_congr Member.stopped rfl), ?_⟩
  refine Placed.setMember h.placed (fun _ ha => ha) ((h.placed p).congr rfl rfl fun r hlive => ?_)
  exact ((s.members p).peers.isLive_remove q r).trans (by rw [hlive, Bool.and_false])

/-! ## Every reachable state -/

theorem Invariant.step (h : Invariant g s) (hs : Step g s s') (hleft : s'.NumbersLeft g) :
    Invariant g s' := by
  cases hs with
  | submit member _ fresh => exact h.submit member fresh
  | takeAsk _ underWay => exact h.takeAsk underWay hleft
  | takeProposal _ underWay => exact h.takeProposal underWay
  | goOn _ collecting advanced => exact h.goOn collecting advanced
  | announce _ collecting advanced agreement => exact h.announce collecting advanced agreement
  | takeAgreement running underWay => exact h.takeAgreement running underWay
  | watch => exact h.watch _
  | crash => exact h.crash _
  | eject _ crashed => exact h.eject crashed
  | loseAsk => exact { h with asking := h.asking.sublist List.filter_sublist }
  | loseAgreement => exact { h with announcing := h.announcing.sublist List.filter_sublist }
  | dropAsk => exact { h with asking := h.asking.sublist List.erase_sublist }
  | dropAgreement => exact { h with announcing := h.announcing.sublist List.erase_sublist }
  | dropProposal =>
    exact { h with
      counting := ⟨fun q w hw => h.counting.proposals_mem q w (List.mem_of_mem_erase hw),
        h.counting.sound⟩ }

/-- Numbers only grow. -/
theorem Step.maxProposed_le (hs : Step g s s') (p : NodeId) :
    (s.members p).sequencer.maxProposed ≤ (s'.members p).sequencer.maxProposed := by
  have hset : ∀ q m, (s.members q).sequencer.maxProposed ≤ m.sequencer.maxProposed →
      (s.members p).sequencer.maxProposed
        ≤ ((s.setMember q m).members p).sequencer.maxProposed := by
    intro q m hle
    by_cases hp : p = q
    · rw [hp, State.members_setMember_self]
      exact hle
    · rw [s.members_setMember_of_ne m hp]
      exact UInt64.le_refl _
  have hrelease : ∀ m : Member, m.release.sequencer.maxProposed = m.sequencer.maxProposed :=
    fun m => maxProposed_release _ _
  cases hs with
  | submit => exact hset _ _ (UInt64.le_refl _)
  | @takeAsk q ask =>
    refine hset q _ ?_
    rw [Member.answer, hrelease]
    exact maxProposed_le_onAsk _ ask
  | takeProposal => exact hset _ _ (UInt64.le_refl _)
  | goOn => exact hset _ _ (UInt64.le_refl _)
  | announce => exact hset _ _ (UInt64.le_refl _)
  | @takeAgreement q a =>
    refine hset q _ ?_
    rw [Member.adopt, hrelease, maxProposed_onAgreement]
    exact UInt64.le_refl _
  | @watch q =>
    refine hset q _ ?_
    unfold Member.watchGroup
    split
    · exact UInt64.le_refl _
    · rw [hrelease]
      exact UInt64.le_refl _
  | crash => exact hset _ _ (UInt64.le_refl _)
  | eject => exact hset _ _ (UInt64.le_refl _)
  | loseAsk => exact UInt64.le_refl _
  | loseAgreement => exact UInt64.le_refl _
  | dropAsk => exact UInt64.le_refl _
  | dropAgreement => exact UInt64.le_refl _
  | dropProposal => exact UInt64.le_refl _

/-- Numbers that are left were left before. -/
theorem Step.numbersLeft (hs : Step g s s') (hleft : s'.NumbersLeft g) : s.NumbersLeft g := by
  intro p hp hlast
  exact hleft p hp (eq_last_of_le (hlast ▸ hs.maxProposed_le p))

theorem Reachable.invariant (h : Reachable g s) (hleft : s.NumbersLeft g) : Invariant g s := by
  induction h with
  | init => exact .init g
  | step _ next ih => exact (ih (next.numbersLeft hleft)).step next hleft

end AgreedOrder.Protocol
