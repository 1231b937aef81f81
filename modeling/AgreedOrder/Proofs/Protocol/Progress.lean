/-
  AgreedOrder.Proofs.Protocol.Progress

  Nothing is forgotten on the way from an ask to a delivery. While the sender
  of a message runs, its ask reaches every running member, every answer of a
  running member reaches the collector, and the agreement reaches every
  running member. So once nothing is on its way and every crash was noticed,
  nothing is held any more.

    * `Voted`, `Progress` — what is still to come.
    * `Progress.step`, `Reachable.progress` — it is so in every reachable state.
-/

import AgreedOrder.Proofs.Protocol.Attention
import AgreedOrder.Proofs.Protocol.Invariant

namespace AgreedOrder.Protocol

open Json Sequencer

variable {g : Roster} {s s' : State}

/-! ## Votes on their way -/

/-- An answer is on its way to a collector, or has come, or is counted. -/
def Awaited (proposals : List (NodeId × Proposal)) (p : NodeId) (c : Collector) (v : Proposal) :
    Prop :=
  (p, v) ∈ proposals ∨ v ∈ c.inbox ∨ ∃ n, c.votes.numbers.get? v.voter = some n

/-- The answers of running members reach the collectors of running members. -/
def Voted (running : NodeId → Prop) (answered : List Proposal)
    (proposals : List (NodeId × Proposal)) (members : NodeId → Member) : Prop :=
  ∀ p, running p → ∀ c ∈ (members p).collectors, ∀ v ∈ answered, v.id = c.votes.id →
    running v.voter → Awaited proposals p c v

section Voted

variable {running running' : NodeId → Prop} {answered : List Proposal}
  {proposals proposals' : List (NodeId × Proposal)}

theorem Voted.mono {ms ms' : NodeId → Member} (h : Voted running answered proposals ms)
    (hrunning : ∀ p, running' p → running p)
    (hcollectors : ∀ p, (ms' p).collectors = (ms p).collectors)
    (hproposals : ∀ p v, running' p → running' v.voter → (p, v) ∈ proposals →
      (p, v) ∈ proposals') : Voted running' answered proposals' ms' := by
  intro p hp c hc v hv hid hvoter
  rw [hcollectors] at hc
  rcases h p (hrunning p hp) c hc v hv hid (hrunning _ hvoter) with hway | hcame
  · exact Or.inl (hproposals p v hp hvoter hway)
  · exact Or.inr hcame

theorem Voted.setMember (h : Voted running answered proposals s.members)
    (hrunning : ∀ p, running' p → running p) {p : NodeId} {m : Member}
    (hm : running p → ∀ c ∈ m.collectors, ∀ v ∈ answered, v.id = c.votes.id →
      running v.voter → Awaited proposals' p c v)
    (hproposals : ∀ q v, q ≠ p → (q, v) ∈ proposals → (q, v) ∈ proposals') :
    Voted running' answered proposals' (s.setMember p m).members := by
  intro q hq c hc v hv hid hvoter
  by_cases hqp : q = p
  · rw [hqp] at hq ⊢
    rw [hqp, State.members_setMember_self] at hc
    exact hm (hrunning p hq) c hc v hv hid (hrunning _ hvoter)
  · rw [s.members_setMember_of_ne m hqp] at hc
    rcases h q (hrunning q hq) c hc v hv hid (hrunning _ hvoter) with hway | hcame
    · exact Or.inl (hproposals q v hqp hway)
    · exact Or.inr hcame

end Voted

/-- A proposal that arrives goes to the collector that waits for it. -/
theorem awaited_collect {proposals : List (NodeId × Proposal)} {p : NodeId} {c : Collector}
    {v w : Proposal} (h : Awaited proposals p c w) (hid : w.id = c.votes.id) :
    Awaited (proposals.erase (p, v)) p
      (if c.votes.id = v.id then { c with inbox := c.inbox ++ [v] } else c) w := by
  rcases h with hway | hinbox | hvote
  · by_cases heq : w = v
    · subst heq
      rw [if_pos hid.symm]
      exact Or.inr (Or.inl (List.mem_append_right _ (List.mem_singleton_self w)))
    · exact Or.inl ((List.mem_erase_of_ne fun hpair => heq (Prod.mk.inj hpair).2).2 hway)
  · refine Or.inr (Or.inl ?_)
    split
    · exact List.mem_append_left _ hinbox
    · exact hinbox
  · refine Or.inr (Or.inr ?_)
    split <;> exact hvote

/-- A round of a collection counts what came in. -/
theorem awaited_of_goesOn {proposals : List (NodeId × Proposal)} {p : NodeId} {c c' : Collector}
    {live : List NodeId} {changes : Nat} {v : Proposal}
    (hgo : Collector.GoesOn live changes c c') (h : Awaited proposals p c v)
    (hid : v.id = c.votes.id) : Awaited proposals p c' v := by
  rcases h with hway | hinbox | ⟨n, hn⟩
  · exact Or.inl hway
  · exact Or.inr (Or.inr (hgo.countsAll.counted v hinbox hid))
  · exact Or.inr (Or.inr (hgo.countsAll.kept _ n hn))

/-! ## What is still to come -/

/-- The sender of the message of an agreement. -/
def Announces (asked : List Ask) (a : Agreement) (p : NodeId) : Prop :=
  ∃ ask ∈ asked, ask.id = a.id ∧ ask.sender = p

/-- Someone in the group has crashed. -/
def State.SomeCrashed (g : Roster) (s : State) : Prop := ∃ q ∈ g.ids, ¬s.Running q

theorem someCrashed_congr (hrun : ∀ q, s'.Running q ↔ s.Running q) :
    s'.SomeCrashed g ↔ s.SomeCrashed g := by
  unfold State.SomeCrashed
  simp only [hrun]

/-- Asks, answers and agreements are on their way to whoever still needs them, and members do what
    they can. -/
structure Progress (g : Roster) (s : State) : Prop where
  asks : Spreading g s.Running (fun a p => a.sender = p) s.asked s.asks
    fun p a => Answered s.answered p a.id
  agreements : Spreading g s.Running (Announces s.asked) s.announced s.agreements
    fun p a => (p, a) ∈ s.taken
  polled : ∀ ask ∈ s.asked, s.Running ask.sender →
    ask.id ∈ pollIds (s.members ask.sender) ∨ ∃ a ∈ s.announced, a.id = ask.id
  voted : Voted s.Running s.answered s.proposals s.members
  attentive : ∀ p, Attentive (s.SomeCrashed g) (s.members p)
  crashed_mem : ∀ p, ¬s.Running p → p ∈ g.ids

theorem Progress.init (g : Roster) : Progress g (State.init g) where
  asks _ ha := absurd ha List.not_mem_nil
  agreements _ ha := absurd ha List.not_mem_nil
  polled _ ha := absurd ha List.not_mem_nil
  voted _ _ _ hc := absurd hc List.not_mem_nil
  attentive p := .init p g.nodes g.capacity
  crashed_mem _ hp := absurd rfl hp

theorem Attentive.setMember {crashed crashed' : Prop} (h : ∀ q, Attentive crashed (s.members q))
    (hcrashed : crashed → crashed') {p : NodeId} {m : Member} (hm : Attentive crashed' m)
    (q : NodeId) : Attentive crashed' ((s.setMember p m).members q) := by
  by_cases hq : q = p
  · rw [hq, State.members_setMember_self]
    exact hm
  · rw [s.members_setMember_of_ne m hq]
    exact (h q).mono hcrashed

section Frame

variable (h : Progress g s) (hrun : ∀ q, s'.Running q ↔ s.Running q)
include h hrun

/-! Steps that crash nobody leave alone what they do not speak of. -/

theorem Progress.asks_of_running : Spreading g s'.Running (fun a p => a.sender = p) s.asked s.asks
    fun p a => Answered s.answered p a.id :=
  h.asks.mono (fun q => (hrun q).1) fun _ _ _ heq => heq

theorem Progress.agreements_of_running : Spreading g s'.Running (Announces s.asked) s.announced
    s.agreements fun p a => (p, a) ∈ s.taken :=
  h.agreements.mono (fun q => (hrun q).1) fun _ _ _ heq => heq

theorem Progress.crashed_of_running (q : NodeId) (hq : ¬s'.Running q) : q ∈ g.ids :=
  h.crashed_mem q fun hr => hq ((hrun q).2 hr)

theorem Progress.attentive_of_running {p : NodeId} {m : Member}
    (hm : Attentive (s.SomeCrashed g) m) (q : NodeId) :
    Attentive (s'.SomeCrashed g) ((s.setMember p m).members q) := by
  rw [someCrashed_congr (g := g) hrun]
  exact Attentive.setMember h.attentive id hm q

end Frame

/-- A step that crashes nobody and says nothing keeps what is still to come, if the member where it
    happens keeps its polls, still awaits its votes and does what it can. -/
theorem Progress.setMember (h : Progress g s) {p : NodeId} {m : Member}
    (hstopped : m.stopped = (s.members p).stopped) (hids : pollIds m = pollIds (s.members p))
    (hvoted : s.Running p → ∀ c ∈ m.collectors, ∀ v ∈ s.answered, v.id = c.votes.id →
      s.Running v.voter → Awaited s.proposals p c v)
    (hattentive : Attentive (s.SomeCrashed g) m) : Progress g (s.setMember p m) := by
  have hrun : ∀ q, (s.setMember p m).Running q ↔ s.Running q :=
    State.running_congr (State.setMember_congr Member.stopped hstopped)
  refine ⟨h.asks_of_running hrun,
    h.agreements_of_running hrun, fun ask hask hr => ?_,
    h.voted.setMember (fun q => (hrun q).1) hvoted fun _ _ _ hv => hv,
    h.attentive_of_running hrun hattentive, h.crashed_of_running hrun⟩
  rw [State.setMember_congr pollIds hids]
  exact h.polled ask hask ((hrun _).1 hr)

/-! ## Each step -/

theorem Progress.submit (h : Progress g s) (hi : Invariant g s) {ask : Ask}
    (hfresh : ∀ a ∈ s.asked, a.id ≠ ask.id) : Progress g (s.submit g ask) := by
  have hrun : ∀ q, (s.submit g ask).Running q ↔ s.Running q :=
    State.running_congr (State.setMember_congr Member.stopped rfl)
  -- Polls are only added.
  have hids : ∀ q id, id ∈ pollIds (s.members q) → id ∈ pollIds ((s.submit g ask).members q) := by
    intro q id hid
    by_cases hq : q = ask.sender
    · show id ∈ pollIds ((s.setMember _ _).members q)
      rw [hq, State.members_setMember_self, pollIds, Member.openCollector, List.map_append]
      exact List.mem_append_left _ (hq ▸ hid)
    · show id ∈ pollIds ((s.setMember _ _).members q)
      rw [s.members_setMember_of_ne _ hq]
      exact hid
  -- No agreement is for the new message, so nobody new has to announce it.
  have horigin : ∀ a ∈ s.announced, ∀ p, Announces (s.asked ++ [ask]) a p →
      Announces s.asked a p := by
    rintro a ha p ⟨b, hb, hid, hp⟩
    rcases mem_append_singleton.1 hb with hb | rfl
    · exact ⟨b, hb, hid, hp⟩
    · obtain ⟨d, hd, hdid⟩ := hi.polling.announced_asked a ha
      exact absurd (hdid.trans hid.symm) (hfresh d hd)
  refine ⟨?_, h.agreements.mono (fun q => (hrun q).1) horigin, fun a ha hr => ?_,
    h.voted.setMember (fun q => (hrun q).1) (fun hp c hc v hv hid hvoter => ?_)
      fun _ _ _ hv => hv, ?_, h.crashed_of_running hrun⟩
  · exact (h.asks_of_running hrun).issue
      fun hmem => hfresh ask hmem rfl
  -- The new message has a poll at its sender.
  · rcases mem_append_singleton.1 ha with ha | rfl
    · exact (h.polled a ha ((hrun _).1 hr)).imp_left (hids _ _)
    · left
      show a.id ∈ pollIds ((s.setMember _ _).members a.sender)
      rw [State.members_setMember_self, pollIds, Member.openCollector, List.map_append]
      exact List.mem_append_right _ (List.mem_singleton_self _)
  -- Nobody has voted for the new message.
  · rcases mem_append_singleton.1 hc with hc | rfl
    · exact h.voted _ hp c hc v hv hid hvoter
    · obtain ⟨a, ha, haid⟩ := hi.asking.answered_asked v hv
      exact absurd (haid.trans hid) (hfresh a ha)
  · exact h.attentive_of_running hrun ((h.attentive _).openCollector _)

theorem Progress.takeAsk (h : Progress g s) (hi : Invariant g s) {p : NodeId} {ask : Ask}
    (hask : (p, ask) ∈ s.asks) : Progress g (s.takeAsk p ask) := by
  obtain ⟨hp, hasked⟩ := hi.asking.handing.mem p ask hask
  have hanswer := hi.answer_eq hask
  have hrun : ∀ q, (s.takeAsk p ask).Running q ↔ s.Running q :=
    State.running_congr (State.setMember_congr Member.stopped rfl)
  have hnew : ((s.members p).answer ask).1
      = ⟨p, ask.id, (s.members p).sequencer.nextNumber⟩ := congrArg Prod.fst hanswer
  refine ⟨?_, h.agreements_of_running hrun, fun a ha hr => ?_,
    fun q hq c hc v hv hid hvoter => ?_, ?_,
    h.crashed_of_running hrun⟩
  -- The ask is answered now.
  · show Spreading g _ _ s.asked (s.asks.erase (p, ask))
      fun q a => Answered (s.answered ++ [((s.members p).answer ask).1]) q a.id
    rw [hnew]
    refine (h.asks_of_running hrun).take ?_ ?_ ?_
    · exact ⟨_, List.mem_append_right _ (List.mem_singleton_self _)⟩
    · exact fun q a hqa => hqa.imp fun n hn => List.mem_append_left _ hn
    · rintro q a ha ⟨n, hn⟩
      rcases mem_append_singleton.1 hn with hn | heq
      · exact Or.inl ⟨n, hn⟩
      · injection heq with _ hid _
        rw [hi.asking.ask_eq ha hasked hid]
        exact Or.inr ⟨p, hask⟩
  -- Polls and their votes stay as they are, and the new vote is on its way.
  · rw [show pollIds ((s.takeAsk p ask).members a.sender) = pollIds (s.members a.sender) from
      State.setMember_congr pollIds (m := ((s.members p).answer ask).2) rfl _]
    exact h.polled a ha ((hrun _).1 hr)
  · rw [show ((s.takeAsk p ask).members q).collectors = (s.members q).collectors from
      State.setMember_congr Member.collectors (m := ((s.members p).answer ask).2) rfl q] at hc
    rcases mem_append_singleton.1 hv with hv | rfl
    · rcases h.voted q ((hrun q).1 hq) c hc v hv hid ((hrun _).1 hvoter) with hway | hcame
      · exact Or.inl (List.mem_append_left _ hway)
      · exact Or.inr hcame
    · -- The collector is at the sender, which runs, so it is live where the ask is answered.
      obtain ⟨b, hb, hbid, hbq⟩ := hi.polling.of_ask q _ (List.mem_map_of_mem hc)
      rw [hnew] at hid
      have hsender : ask.sender = q := by
        rw [← hbq, hi.asking.ask_eq hb hasked (hbid.trans hid.symm)]
      have hlive := hi.live.isLive_of_running p q (hsender ▸ hi.asking.sender_mem ask hasked)
        ((hrun q).1 hq)
      refine Or.inl (List.mem_append_right _ ?_)
      rw [hsender, if_pos hlive]
      exact List.mem_singleton_self _
  -- A release does all that can be done.
  · refine h.attentive_of_running hrun ?_
    rw [hanswer]
    exact (h.attentive p).release ((hi.placed p).coherent.enlist ask) rfl rfl (h.attentive p).seen

theorem Progress.takeProposal (h : Progress g s) {p : NodeId} {v : Proposal} :
    Progress g (s.takeProposal p v) := by
  have hrun : ∀ q, (s.takeProposal p v).Running q ↔ s.Running q :=
    State.running_congr (State.setMember_congr Member.stopped rfl)
  refine ⟨h.asks_of_running hrun,
    h.agreements_of_running hrun, fun a ha hr => ?_,
    h.voted.setMember (fun q => (hrun q).1) (fun hp c hc w hw hid hvoter => ?_)
      (fun q w hq hw => ?_), ?_, h.crashed_of_running hrun⟩
  · rw [show pollIds ((s.takeProposal p v).members a.sender) = pollIds (s.members a.sender) from
      State.setMember_congr pollIds (pollIds_collect _ v) _]
    exact h.polled a ha ((hrun _).1 hr)
  -- The vote has come to its collection.
  · obtain ⟨d, hd, rfl⟩ := List.mem_map.1 hc
    have hdid : w.id = d.votes.id := by
      rw [hid]
      split <;> rfl
    exact awaited_collect (h.voted p hp d hd w hw hdid hvoter) hdid
  · exact (List.mem_erase_of_ne fun heq => hq (Prod.mk.inj heq).1).2 hw
  · exact h.attentive_of_running hrun ((h.attentive p).collect v)

theorem Progress.goOn (h : Progress g s) {p : NodeId} {c c' : Collector}
    {before after : List Collector} (hc : (s.members p).collectors = before ++ c :: after)
    (hadvance : c.advance (s.members p).peers.liveIds (s.members p).peers.changes = (false, c')) :
    Progress g (s.setCollectors p (before ++ c' :: after)) := by
  have hcounts := c.advance_counts (s.members p).peers.liveIds (s.members p).peers.changes
  have hgo := Collector.advance_of_open (c := c) (by rw [hadvance])
  rw [hadvance] at hcounts hgo
  have hmem : c ∈ (s.members p).collectors := (mem_iff_of_split hc).2 (Or.inl rfl)
  -- Only one collection has changed.
  have hsplit : ∀ d ∈ before ++ c' :: after, d ∈ (s.members p).collectors ∨ d = c' := by
    intro d hd
    rcases (mem_iff_of_split rfl).1 hd with rfl | hd
    · exact Or.inr rfl
    · exact Or.inl ((mem_iff_of_split hc).2 (Or.inr hd))
  refine h.setMember rfl ?_ (fun hp d hd v hv hid hvoter => ?_)
    ((h.attentive p).setCollectors fun d hd => ?_)
  · rw [pollIds, pollIds, hc, List.map_append, List.map_append, List.map_cons, List.map_cons,
      hcounts.id_eq]
  · rcases hsplit d hd with hd | rfl
    · exact h.voted p hp d hd v hv hid hvoter
    · have hid' := hid.trans hcounts.id_eq
      exact awaited_of_goesOn hgo (h.voted p hp c hmem v hv hid' hvoter) hid'
  · rcases hsplit d hd with hd | rfl
    · exact Or.inl hd
    · exact Or.inr ⟨hgo.seenChanges_eq, (h.attentive p).incomplete_of_goesOn hmem hgo⟩

theorem Progress.announce (h : Progress g s) (hi : Invariant g s) {p : NodeId} {c c' : Collector}
    {before after : List Collector} (hc : (s.members p).collectors = before ++ c :: after)
    (hadvance : c.advance (s.members p).peers.liveIds (s.members p).peers.changes = (true, c'))
    {a : Agreement} (ha : c'.votes.agreement = some a) :
    Progress g (s.announce g p (before ++ after) a) := by
  have hcounts := c.advance_counts (s.members p).peers.liveIds (s.members p).peers.changes
  rw [hadvance] at hcounts
  have hid : a.id = c.votes.id := (Votes.agreement_eq_some ha).1.trans hcounts.id_eq
  have hmem : c.votes.id ∈ pollIds (s.members p) :=
    List.mem_map_of_mem ((mem_iff_of_split hc).2 (Or.inl rfl))
  have hnew : a ∉ s.announced := fun hann => hi.polling.undecided p _ hmem a hann hid
  -- Only the collection that is over is gone.
  have hsub : ∀ d ∈ before ++ after, d ∈ (s.members p).collectors :=
    fun d hd => (mem_iff_of_split hc).2 (Or.inr hd)
  have hrun : ∀ q, (s.announce g p (before ++ after) a).Running q ↔ s.Running q :=
    State.running_congr (State.setMember_congr Member.stopped rfl)
  refine ⟨h.asks_of_running hrun,
    (h.agreements_of_running hrun).issue hnew, fun b hb hr => ?_,
    h.voted.setMember (fun q => (hrun q).1) (fun hp d hd => h.voted p hp d (hsub d hd))
      fun _ _ _ hv => hv, ?_, h.crashed_of_running hrun⟩
  · rcases h.polled b hb ((hrun _).1 hr) with hpoll | ⟨d, hd, hdid⟩
    · by_cases hbc : b.id = c.votes.id
      · exact Or.inr ⟨a, List.mem_append_right _ (List.mem_singleton_self a), hid.trans hbc.symm⟩
      -- Each other message still has its poll.
      · left
        show b.id ∈ pollIds ((s.setMember p _).members b.sender)
        by_cases hbp : b.sender = p
        · rw [hbp, pollIds, hc, List.map_append, List.map_cons, List.mem_append,
            List.mem_cons] at hpoll
          rw [hbp, State.members_setMember_self, pollIds, List.map_append, List.mem_append]
          exact hpoll.imp_right fun hrest => hrest.resolve_left hbc
        · rw [s.members_setMember_of_ne _ hbp]
          exact hpoll
    · exact Or.inr ⟨d, List.mem_append_left _ hd, hdid⟩
  · exact h.attentive_of_running hrun
      ((h.attentive p).setCollectors fun d hd => Or.inl (hsub d hd))

theorem Progress.takeAgreement (h : Progress g s) (hi : Invariant g s) {p : NodeId} {a : Agreement}
    (ha : (p, a) ∈ s.agreements) : Progress g (s.takeAgreement p a) := by
  have hrun : ∀ q, (s.takeAgreement p a).Running q ↔ s.Running q :=
    State.running_congr (State.setMember_congr Member.stopped rfl)
  -- For all but the agreements this is a change of one member.
  have hset : Progress g (s.setMember p ((s.members p).adopt a)) := by
    refine h.setMember rfl rfl (fun hp c hc => h.voted p hp c hc) ?_
    exact (h.attentive p).release ((hi.placed p).coherent.onAgreement a) rfl rfl
      (h.attentive p).seen
  refine { hset with agreements := ?_ }
  refine (h.agreements_of_running hrun).take ?_ ?_ ?_
  · exact List.mem_append_right _ (List.mem_singleton_self _)
  · exact fun q b hqb => List.mem_append_left _ hqb
  · intro q b _ hqb
    rcases mem_append_singleton.1 hqb with hqb | heq
    · exact Or.inl hqb
    · cases heq
      exact Or.inr ⟨p, ha⟩

theorem Progress.watch (h : Progress g s) (hi : Invariant g s) (p : NodeId) :
    Progress g (s.setMember p (s.members p).watchGroup) := by
  obtain ⟨-, hstopped, hcollectors⟩ := watchGroup_frame (s.members p)
  refine h.setMember hstopped ?_ (fun hp c hc => h.voted p hp c ?_)
    ((h.attentive p).watchGroup (hi.placed p).coherent)
  · rw [pollIds, hcollectors, pollIds]
  · rw [← hcollectors]
    exact hc

theorem Progress.crash (h : Progress g s) {p : NodeId} (hp : p ∈ g.ids) :
    Progress g (s.setMember p (s.members p).stop) := by
  have hrun : ∀ q, (s.setMember p (s.members p).stop).Running q → s.Running q :=
    fun _ => State.running_of_stop
  have hcrashed : s.SomeCrashed g → (s.setMember p (s.members p).stop).SomeCrashed g := by
    rintro ⟨q, hq, hdead⟩
    exact ⟨q, hq, fun hr => hdead (hrun q hr)⟩
  refine ⟨h.asks.mono hrun fun _ _ _ heq => heq, h.agreements.mono hrun fun _ _ _ heq => heq,
    fun a ha hr => ?_,
    h.voted.mono hrun (State.setMember_congr Member.collectors rfl) fun _ _ _ _ hv => hv,
    Attentive.setMember h.attentive hcrashed ((h.attentive p).stop.mono hcrashed),
    fun q hq => ?_⟩
  · rw [State.setMember_congr (m := (s.members p).stop) pollIds rfl]
    exact h.polled a ha (hrun _ hr)
  · by_cases hqp : q = p
    · rw [hqp]
      exact hp
    · rw [State.Running, s.members_setMember_of_ne _ hqp] at hq
      exact h.crashed_mem q hq

theorem Progress.eject (h : Progress g s) {p q : NodeId} (crashed : ¬s.Running q) :
    Progress g (s.setMember p ((s.members p).eject q).2) :=
  h.setMember rfl rfl (fun hp c hc => h.voted p hp c hc)
    ((h.attentive p).eject q ⟨q, h.crashed_mem q crashed, crashed⟩)

theorem Progress.step (h : Progress g s) (hi : Invariant g s) (hs : Step g s s') :
    Progress g s' := by
  cases hs with
  | submit _ _ fresh => exact h.submit hi fresh
  | takeAsk _ underWay => exact h.takeAsk hi underWay
  | takeProposal => exact h.takeProposal
  | goOn _ collecting advanced => exact h.goOn collecting advanced
  | announce _ collecting advanced agreement => exact h.announce hi collecting advanced agreement
  | takeAgreement _ underWay => exact h.takeAgreement hi underWay
  | watch => exact h.watch hi _
  | crash member => exact h.crash member
  | eject _ crashed => exact h.eject crashed
  | loseAsk sender holders =>
    refine { h with asks := h.asks.lose (fun p hp => hp ▸ sender) ?_ }
    rintro p ⟨n, hn⟩
    exact holders _ hn rfl
  | loseAgreement sender holders =>
    refine { h with agreements := h.agreements.lose ?_ holders }
    rintro p ⟨ask, hask, hid, rfl⟩
    exact sender ask hask hid
  | dropAsk crashed => exact { h with asks := h.asks.drop crashed }
  | dropAgreement crashed => exact { h with agreements := h.agreements.drop crashed }
  | @dropProposal p v crashed =>
    refine { h with voted := h.voted.mono (fun _ hr => hr) (fun _ => rfl) fun q w hq hw hway => ?_ }
    refine (List.mem_erase_of_ne fun heq => ?_).2 hway
    cases heq
    rcases crashed with hdead | hdead
    · exact hdead hq
    · exact hdead hw

theorem Reachable.progress (h : Reachable g s) (hleft : s.NumbersLeft g) : Progress g s := by
  induction h with
  | init => exact .init g
  | step reachable next ih =>
    have hbefore := next.numbersLeft hleft
    exact (ih hbefore).step (reachable.invariant hbefore) next

end AgreedOrder.Protocol
