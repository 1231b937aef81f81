/-
  AgreedOrder.Proofs.Protocol.Divergence

  What a crash can do to the order. A member that has noticed the crash of a
  sender discards what it holds of it without an agreement. Another member may
  have been handed the agreement before, and have delivered the message. This
  is as far as it goes: only messages of crashed senders are discarded, only
  before their agreement arrives, and apart from them all members that run
  have delivered the same in the end.

    * `survivors_diverge` — a run in which it happens.
    * `same_apart_from_discarded` — nothing worse happens.
-/

import AgreedOrder.Proofs.Protocol.Quiescence
import AgreedOrder.Proofs.Protocol.TotalOrder
import Mathlib.Data.List.Sort

namespace AgreedOrder.Protocol

open Sequencer

variable {g : Roster} {s s' : State}

/-! ## A run in which members diverge -/

/-- After `raceActs` the agreement on the third message reaches `b`, which has discarded the
    message, and `a` notices the crash too. -/
def lateActs : List Act := raceActs ++ [.takeAgreement "b" ⟨3⟩, .eject "a" "c", .watch "a"]

theorem survivors_diverge :
    (Reachable trio (run trio lateActs) ∧ (run trio lateActs).NumbersLeft trio ∧
        (run trio lateActs).Running "a" ∧ (run trio lateActs).Running "b") ∧
      (⟨3⟩ ∈ (run trio lateActs).deliveredIds "a" ∧
        Discarded (run trio lateActs).answered "b" ((run trio lateActs).members "b") ⟨3⟩) ∧
      ((run trio lateActs).Quiet trio ∧ (run trio lateActs).Noticed trio ∧
        (run trio lateActs).deliveredIds "a" ≠ (run trio lateActs).deliveredIds "b") := by
  have ha : (run trio lateActs).deliveredIds "a" = [⟨1⟩, ⟨2⟩, ⟨3⟩] := by decide +kernel
  have hb : (run trio lateActs).deliveredIds "b" = [⟨1⟩, ⟨2⟩] := by decide +kernel
  have hanswered : ⟨"b", ⟨3⟩, 3⟩ ∈ (run trio lateActs).answered := by decide +kernel
  have hmessage : ((run trio lateActs).members "b").sequencer.messages.get? ⟨3⟩ = none := by
    rw [← Option.isNone_iff_eq_none]
    decide +kernel
  refine ⟨⟨reachable_run trio lateActs, by decide +kernel, by decide +kernel, by decide +kernel⟩,
    ⟨?_, ⟨⟨3, hanswered⟩, ?_, fun d hd hid => ?_⟩⟩, by decide +kernel, by decide +kernel, ?_⟩
  · rw [ha]
    decide
  · unfold held?
    rw [hmessage]
  · have hmem : ⟨3⟩ ∈ (run trio lateActs).deliveredIds "b" := List.mem_map.2 ⟨d, hd, hid⟩
    rw [hb] at hmem
    exact absurd hmem (by decide)
  · rw [ha, hb]
    decide

/-! ## What is discarded -/

/-- The sender of a discarded message has left, and has crashed. -/
theorem Invariant.sender_left (h : Invariant g s) {p : NodeId} {id : MessageId}
    (hd : Discarded s.answered p (s.members p) id) :
    ∃ ask ∈ s.asked, ask.id = id ∧ (s.members p).peers.isLive ask.sender = false ∧
      ¬s.Running ask.sender := by
  rcases (h.placed p).kept id hd.answered with ⟨x, hx⟩ | ⟨d, hdm, hid⟩ | ⟨ask, hask, hid, hdead⟩
  · rw [hd.not_held] at hx
    cases hx
  · exact absurd hid (hd.not_delivered d hdm)
  · refine ⟨ask, hask, hid, hdead, fun hrun => ?_⟩
    rw [h.live.isLive_of_running p _ (h.asking.sender_mem ask hask) hrun] at hdead
    cases hdead

theorem Discarded.congr {answered answered' : List Proposal} {p : NodeId} {m m' : Member}
    {id : MessageId} (hd : Discarded answered' p m' id)
    (hanswered : Answered answered' p id → Answered answered p id)
    (hsequencer : m'.sequencer = m.sequencer) (hreleased : m'.released = m.released) :
    Discarded answered p m id := by
  refine ⟨hanswered hd.answered, ?_, ?_⟩
  · rw [← hsequencer]
    exact hd.not_held
  · rw [← hreleased]
    exact hd.not_delivered

/-- A step at another member discards nothing here. -/
theorem Discarded.of_setMember {p q : NodeId} {m : Member} {id : MessageId} (hq : q ≠ p)
    {answered' : List Proposal}
    (hd : Discarded answered' q ((s.setMember p m).members q) id)
    (hanswered : Answered answered' q id → Answered s.answered q id) :
    Discarded s.answered q (s.members q) id := by
  have hsame := s.members_setMember_of_ne m hq
  exact hd.congr hanswered (congrArg Member.sequencer hsame) (congrArg Member.released hsame)

/-- A step that moves no message discards nothing. -/
theorem Discarded.of_setMember_congr {p q : NodeId} {m : Member} {id : MessageId}
    (hd : Discarded s.answered q ((s.setMember p m).members q) id)
    (hsequencer : m.sequencer = (s.members p).sequencer)
    (hreleased : m.released = (s.members p).released) : Discarded s.answered q (s.members q) id :=
  hd.congr (fun ha => ha) (State.setMember_congr Member.sequencer hsequencer q)
    (State.setMember_congr Member.released hreleased q)

theorem Invariant.discarded_takeAsk (h : Invariant g s) {p : NodeId} {ask : Ask}
    (hask : (p, ask) ∈ s.asks) (hleft : (s.takeAsk p ask).NumbersLeft g) {q : NodeId}
    {id : MessageId}
    (hd : Discarded (s.takeAsk p ask).answered q ((s.takeAsk p ask).members q) id) :
    Discarded s.answered q (s.members q) id ∨ ∀ a, (q, a) ∈ s.taken → a.id ≠ id := by
  have hanswer := h.answer_eq hask
  change Discarded (s.answered ++ [((s.members p).answer ask).1]) q
    ((s.setMember p ((s.members p).answer ask).2).members q) id at hd
  rw [hanswer] at hd
  by_cases hq : q = p
  · subst hq
    rw [State.members_setMember_self] at hd
    rcases (h.placed_enlist hask hleft).discarded_release hd with hbefore | ⟨hopen, -⟩
    · -- What was asked for just now is held, so it is another message.
      have hheld := hbefore.not_held
      rw [(h.placed q).coherent.held?_enlist] at hheld
      split at hheld
      · cases hheld
      · rename_i hid
        refine Or.inl ⟨?_, hheld, hbefore.not_delivered⟩
        exact hbefore.answered.imp fun n hn => (answered_append_iff (Or.inr hid)).1 hn
    · exact Or.inr hopen
  · refine Or.inl (hd.of_setMember hq ?_)
    exact fun ha => ha.imp fun n hn => (answered_append_iff (Or.inl hq)).1 hn

theorem Invariant.discarded_takeAgreement (h : Invariant g s) {p : NodeId} {a : Agreement}
    (hrun : s.Running p) (ha : (p, a) ∈ s.agreements) {q : NodeId} {id : MessageId}
    (hd : Discarded s.answered q ((s.takeAgreement p a).members q) id) :
    Discarded s.answered q (s.members q) id ∨
      ∀ b, (q, b) ∈ (s.takeAgreement p a).taken → b.id ≠ id := by
  by_cases hq : q = p
  · subst hq
    change Discarded s.answered q ((s.setMember q ((s.members q).adopt a)).members q) id at hd
    rw [State.members_setMember_self] at hd
    rcases (h.placed_onAgreement hrun ha).discarded_release hd with hbefore | ⟨hopen, -⟩
    · have hheld := hbefore.not_held
      rw [(h.placed q).coherent.held?_onAgreement] at hheld
      -- An agreement does not change whether a message is held.
      refine Or.inl ⟨hbefore.answered, ?_, hbefore.not_delivered⟩
      split at hheld
      · exact Option.map_eq_none_iff.1 hheld
      · exact hheld
    · exact Or.inr hopen
  · exact Or.inl (Discarded.of_setMember (m := (s.members p).adopt a) hq hd fun h => h)

theorem Invariant.discarded_watch (h : Invariant g s) {p q : NodeId} {id : MessageId}
    (hd : Discarded s.answered q ((s.setMember p (s.members p).watchGroup).members q) id) :
    Discarded s.answered q (s.members q) id ∨ ∀ a, (q, a) ∈ s.taken → a.id ≠ id := by
  by_cases hq : q = p
  · subst hq
    rw [State.members_setMember_self] at hd
    unfold Member.watchGroup at hd
    split at hd
    · exact Or.inl hd
    · have hplaced : Placed s.asked s.answered s.taken q
          { s.members q with seenChanges := (s.members q).peers.changes } :=
        (h.placed q).congr rfl rfl fun _ hlive => hlive
      rcases hplaced.discarded_release hd with hbefore | ⟨hopen, -⟩
      · exact Or.inl (hbefore.congr (fun ha => ha) rfl rfl)
      · exact Or.inr hopen
  · exact Or.inl (hd.of_setMember hq fun ha => ha)

/-- Whenever a member discards a message, it has not been handed an agreement on it. -/
theorem Invariant.discarded_step (h : Invariant g s) (hs : Step g s s')
    (hleft : s'.NumbersLeft g) {q : NodeId} {id : MessageId}
    (hd : Discarded s'.answered q (s'.members q) id) :
    Discarded s.answered q (s.members q) id ∨ ∀ a, (q, a) ∈ s'.taken → a.id ≠ id := by
  cases hs with
  | submit => refine Or.inl (hd.of_setMember_congr ?_ ?_) <;> rfl
  | takeAsk _ underWay => exact h.discarded_takeAsk underWay hleft hd
  | takeProposal => refine Or.inl (hd.of_setMember_congr ?_ ?_) <;> rfl
  | goOn => refine Or.inl (hd.of_setMember_congr ?_ ?_) <;> rfl
  | announce => refine Or.inl (hd.of_setMember_congr ?_ ?_) <;> rfl
  | takeAgreement running underWay => exact h.discarded_takeAgreement running underWay hd
  | watch => exact h.discarded_watch hd
  | crash => refine Or.inl (hd.of_setMember_congr ?_ ?_) <;> rfl
  | eject => refine Or.inl (hd.of_setMember_congr ?_ ?_) <;> rfl
  | loseAsk => exact Or.inl hd
  | loseAgreement => exact Or.inl hd
  | dropAsk => exact Or.inl hd
  | dropAgreement => exact Or.inl hd
  | dropProposal => exact Or.inl hd

/-! ## What is left in the end -/

/-- What both of two members delivered, both delivered in the same way. -/
theorem Invariant.filter_delivered_eq (h : Invariant g s) (p q : NodeId) :
    (s.delivered p).filter (·.id ∈ s.deliveredIds q)
      = (s.delivered q).filter (·.id ∈ s.deliveredIds p) := by
  have hsub : ∀ p q, ∀ d ∈ (s.delivered p).filter (·.id ∈ s.deliveredIds q),
      d ∈ (s.delivered q).filter (·.id ∈ s.deliveredIds p) := by
    intro p q d hd
    rw [List.mem_filter, decide_eq_true_eq] at hd ⊢
    obtain ⟨e, he, hid⟩ := List.mem_map.1 hd.2
    rw [h.delivery_eq hd.1 he hid.symm]
    exact ⟨he, List.mem_map.2 ⟨d, hd.1, hid.symm⟩⟩
  exact ((h.placed p).sorted.filter _).eq_of_mem_iff ((h.placed q).sorted.filter _)
    fun d => ⟨hsub p q d, hsub q p d⟩

/-- In a settled group a running member has delivered or discarded what another one delivered. -/
theorem Settled.delivered_or_discarded (hs : Settled g s) (h : Progress g s) (hi : Invariant g s)
    {p q : NodeId} (hq : q ∈ g.ids) (hrun : s.Running q) {id : MessageId}
    (hid : id ∈ s.deliveredIds p) :
    id ∈ s.deliveredIds q ∨ Discarded s.answered q (s.members q) id := by
  by_cases hmem : id ∈ s.deliveredIds q
  · exact Or.inl hmem
  · obtain ⟨d, hd, rfl⟩ := List.mem_map.1 hid
    have hannounced := (hi.announcing.taken_mem p _ ((hi.placed p).delivered_taken d hd)).2
    obtain ⟨n, -, hn⟩ := hi.decided.covered _ hannounced q hq (Or.inl hrun)
    refine Or.inr ⟨⟨n, hn⟩, hs.held?_eq_none h hi hq hrun _, fun e he heq => hmem ?_⟩
    exact List.mem_map.2 ⟨e, he, heq⟩

/-- Two members that have discarded nothing of what the other delivered have delivered the same. -/
theorem Settled.delivered_eq (hs : Settled g s) (h : Progress g s) (hi : Invariant g s)
    {p q : NodeId} (hp : p ∈ g.ids) (hrunp : s.Running p) (hq : q ∈ g.ids) (hrunq : s.Running q)
    (hkeptp : ∀ id ∈ s.deliveredIds p, ¬Discarded s.answered q (s.members q) id)
    (hkeptq : ∀ id ∈ s.deliveredIds q, ¬Discarded s.answered p (s.members p) id) :
    s.delivered p = s.delivered q := by
  -- Nothing is left out of what one of them delivered if the other has all of it.
  have hboth : ∀ p q, (∀ id ∈ s.deliveredIds p, id ∈ s.deliveredIds q) →
      (s.delivered p).filter (·.id ∈ s.deliveredIds q) = s.delivered p := by
    intro p q hsub
    rw [List.filter_eq_self]
    intro d hd
    exact decide_eq_true (hsub d.id (List.mem_map_of_mem hd))
  have hpq := hboth p q fun id hid =>
    (hs.delivered_or_discarded h hi hq hrunq hid).resolve_right (hkeptp id hid)
  have hqp := hboth q p fun id hid =>
    (hs.delivered_or_discarded h hi hp hrunp hid).resolve_right (hkeptq id hid)
  rw [← hpq, hi.filter_delivered_eq p q, hqp]

/-- A member discards only messages of senders that crashed and that it has taken out of the group,
    and only while it has not been handed their agreement. Once nothing is on its way and all
    crashes are noticed, no running member holds anything, each has delivered all messages of
    running senders, and the sequences that two of them delivered are the same apart from the
    messages that the other has discarded. -/
theorem same_apart_from_discarded (hs : Reachable g s) (hleft : s.NumbersLeft g) :
    (∀ q id, Discarded s.answered q (s.members q) id → ∃ ask ∈ s.asked, ask.id = id ∧
        (s.members q).peers.isLive ask.sender = false ∧ ¬s.Running ask.sender) ∧
      (∀ s', Step g s s' → s'.NumbersLeft g → ∀ q id,
        Discarded s'.answered q (s'.members q) id →
          Discarded s.answered q (s.members q) id ∨ ∀ a, (q, a) ∈ s'.taken → a.id ≠ id) ∧
      (s.Quiet g → s.Noticed g → ∀ p ∈ g.ids, s.Running p →
        (s.members p).pending = 0 ∧
          (∀ ask ∈ s.asked, s.Running ask.sender → ask.id ∈ s.deliveredIds p) ∧
          ∀ q ∈ g.ids, s.Running q →
            (∀ id ∈ s.deliveredIds p,
              id ∈ s.deliveredIds q ∨ Discarded s.answered q (s.members q) id) ∧
            (s.delivered p).filter (·.id ∈ s.deliveredIds q)
              = (s.delivered q).filter (·.id ∈ s.deliveredIds p) ∧
            ((∀ id ∈ s.deliveredIds p, ¬Discarded s.answered q (s.members q) id) →
              (∀ id ∈ s.deliveredIds q, ¬Discarded s.answered p (s.members p) id) →
                s.delivered p = s.delivered q)) := by
  have hi := hs.invariant hleft
  have h := hs.progress hleft
  refine ⟨fun q id hd => hi.sender_left hd,
    fun s' hstep hleft' q id hd => hi.discarded_step hstep hleft' hd,
    fun hquiet hnoticed p hp hrunp => ?_⟩
  have hsettled := h.settled_of_noticed hquiet hnoticed
  refine ⟨?_, fun ask hask hsender => ?_, fun q hq hrunq => ⟨fun id hid => ?_, ?_, ?_⟩⟩
  · exact (hi.placed p).coherent.pending_eq_zero_iff.2
      fun id => hsettled.held?_eq_none h hi hp hrunp id
  · obtain ⟨d, hd, hid⟩ := hsettled.delivered h hi hask hsender hp hrunp
    exact List.mem_map.2 ⟨d, hd, hid⟩
  · exact hsettled.delivered_or_discarded h hi hq hrunq hid
  · exact hi.filter_delivered_eq p q
  · exact hsettled.delivered_eq h hi hp hrunp hq hrunq

theorem same_apart_from_discarded_of_late :
    (run trio lateActs).NumbersLeft trio ∧ (run trio lateActs).Quiet trio ∧
      (run trio lateActs).Noticed trio ∧ ⟨3⟩ ∈ (run trio lateActs).deliveredIds "a" ∧
      Discarded (run trio lateActs).answered "b" ((run trio lateActs).members "b") ⟨3⟩ ∧
      ((run trio lateActs).delivered "a").filter (·.id ∈ (run trio lateActs).deliveredIds "b")
        = ((run trio lateActs).delivered "b").filter
          (·.id ∈ (run trio lateActs).deliveredIds "a") := by
  have hleft : (run trio lateActs).NumbersLeft trio := by decide +kernel
  have hquiet : (run trio lateActs).Quiet trio := by decide +kernel
  have hnoticed : (run trio lateActs).Noticed trio := by decide +kernel
  have hthird : ⟨3⟩ ∈ (run trio lateActs).deliveredIds "a" := by decide +kernel
  have hmissing : ⟨3⟩ ∉ (run trio lateActs).deliveredIds "b" := by decide +kernel
  have hruna : (run trio lateActs).Running "a" := by decide +kernel
  have hrunb : (run trio lateActs).Running "b" := by decide +kernel
  obtain ⟨-, -, hend⟩ := same_apart_from_discarded (reachable_run trio lateActs) hleft
  obtain ⟨-, -, hpair⟩ := hend hquiet hnoticed "a" (by decide) hruna
  obtain ⟨hall, hsame, -⟩ := hpair "b" (by decide) hrunb
  exact ⟨hleft, hquiet, hnoticed, hthird, (hall ⟨3⟩ hthird).resolve_left hmissing, hsame⟩

end AgreedOrder.Protocol
