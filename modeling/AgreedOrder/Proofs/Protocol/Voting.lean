/-
  AgreedOrder.Proofs.Protocol.Voting

  Every vote that a collector counts is an answer that was given, and a
  collector decides only when it has the votes of all members it counts as
  live, among them every running one. So the number agreed for a message is
  not below what any member that can still act has proposed for it.

    * `Polling`, `Counting` — the collections of votes.
    * `Decided` — the agreements that come of them.
-/

import AgreedOrder.Proofs.Protocol.Membership
import AgreedOrder.Proofs.Protocol.Records
import AgreedOrder.Proofs.Votes

namespace AgreedOrder.Protocol

variable {g : Roster} {asked asked' : List Ask} {asks : List (NodeId × Ask)}
  {answered answered' : List Proposal} {proposals proposals' : List (NodeId × Proposal)}
  {announced : List Agreement} {agreements taken taken' : List (NodeId × Agreement)}

/-! ## The messages that are being voted on -/

/-- The messages whose votes a member collects. -/
def pollIds (m : Member) : List MessageId := m.collectors.map (·.votes.id)

/-- Votes are collected at the sender of a message, once, until they are decided. -/
structure Polling (asked : List Ask) (announced : List Agreement)
    (members : NodeId → Member) : Prop where
  of_ask : ∀ p, ∀ id ∈ pollIds (members p), ∃ a ∈ asked, a.id = id ∧ a.sender = p
  undecided : ∀ p, ∀ id ∈ pollIds (members p), ∀ a ∈ announced, a.id ≠ id
  nodup : ∀ p, (pollIds (members p)).Nodup
  announced_asked : ∀ a ∈ announced, ∃ ask ∈ asked, ask.id = a.id

theorem Polling.init (g : Roster) : Polling [] [] (State.init g).members where
  of_ask _ _ hid := absurd hid List.not_mem_nil
  undecided _ _ hid := absurd hid List.not_mem_nil
  nodup _ := List.nodup_nil
  announced_asked _ ha := absurd ha List.not_mem_nil

theorem Polling.congr {ms ms' : NodeId → Member} (h : Polling asked announced ms)
    (hids : ∀ p, pollIds (ms' p) = pollIds (ms p)) : Polling asked announced ms' where
  of_ask p id hid := h.of_ask p id (by rw [← hids]; exact hid)
  undecided p id hid := h.undecided p id (by rw [← hids]; exact hid)
  nodup p := by
    rw [hids]
    exact h.nodup p
  announced_asked := h.announced_asked

theorem Polling.submit {s : State} (h : Polling asked announced s.members) {ask : Ask}
    (hfresh : ∀ a ∈ asked, a.id ≠ ask.id) :
    Polling (asked ++ [ask]) announced
      (s.setMember ask.sender ((s.members ask.sender).openCollector ask.id)).members := by
  have hself : pollIds ((s.members ask.sender).openCollector ask.id)
      = pollIds (s.members ask.sender) ++ [ask.id] := List.map_append
  -- The only new poll is that of the new message, at its sender.
  have hsplit : ∀ p id, id ∈ pollIds ((s.setMember ask.sender
      ((s.members ask.sender).openCollector ask.id)).members p) →
      id ∈ pollIds (s.members p) ∨ p = ask.sender ∧ id = ask.id := by
    intro p id hid
    by_cases hp : p = ask.sender
    · rw [hp, State.members_setMember_self, hself] at hid
      rcases mem_append_singleton.1 hid with hid | hid
      · rw [hp]
        exact Or.inl hid
      · exact Or.inr ⟨hp, hid⟩
    · rw [s.members_setMember_of_ne _ hp] at hid
      exact Or.inl hid
  refine ⟨fun p id hid => ?_, fun p id hid a ha => ?_, fun p => ?_, fun a ha => ?_⟩
  · rcases hsplit p id hid with hid | ⟨rfl, rfl⟩
    · obtain ⟨a, ha, haid⟩ := h.of_ask p id hid
      exact ⟨a, List.mem_append_left _ ha, haid⟩
    · exact ⟨ask, List.mem_append_right _ (List.mem_singleton_self _), rfl, rfl⟩
  · rcases hsplit p id hid with hid | ⟨-, rfl⟩
    · exact h.undecided p id hid a ha
    · obtain ⟨b, hb, hbid⟩ := h.announced_asked a ha
      exact fun hid => hfresh b hb (hbid.trans hid)
  · by_cases hp : p = ask.sender
    · rw [hp, State.members_setMember_self, hself, ← List.concat_eq_append]
      refine (h.nodup _).concat fun hid => ?_
      obtain ⟨a, ha, haid, -⟩ := h.of_ask _ _ hid
      exact hfresh a ha haid
    · rw [s.members_setMember_of_ne _ hp]
      exact h.nodup p
  · obtain ⟨b, hb, hbid⟩ := h.announced_asked a ha
    exact ⟨b, List.mem_append_left _ hb, hbid⟩

theorem Polling.announce {s : State} (h : Polling asked announced s.members)
    (hasking : Asking g asked asks answered) {p : NodeId} {c : Collector}
    {before after : List Collector} (hc : (s.members p).collectors = before ++ c :: after)
    {a : Agreement} (ha : a.id = c.votes.id) :
    Polling asked (announced ++ [a]) (s.setCollectors p (before ++ after)).members := by
  have hids : pollIds (s.members p)
      = before.map (·.votes.id) ++ c.votes.id :: after.map (·.votes.id) := by
    rw [pollIds, hc, List.map_append, List.map_cons]
  have hmem : c.votes.id ∈ pollIds (s.members p) := (mem_iff_of_split hids).2 (Or.inl rfl)
  have hnodup := h.nodup p
  rw [hids, List.nodup_middle, List.nodup_cons, ← List.map_append] at hnodup
  -- The poll that is over is gone, and there is no other one on its message.
  have hsub : ∀ q id, id ∈ pollIds ((s.setCollectors p (before ++ after)).members q) →
      id ∈ pollIds (s.members q) ∧ id ≠ c.votes.id := by
    intro q id hid
    by_cases hq : q = p
    · rw [hq, State.setCollectors, State.members_setMember_self] at hid
      rw [hq, hids, List.mem_append, List.mem_cons]
      refine ⟨?_, fun heq => hnodup.1 (heq ▸ hid)⟩
      rw [pollIds, List.map_append, List.mem_append] at hid
      exact hid.imp_right Or.inr
    · rw [State.setCollectors, s.members_setMember_of_ne _ hq] at hid
      refine ⟨hid, fun heq => hq ?_⟩
      -- Two members collect votes only on messages of their own.
      obtain ⟨b, hb, hbid, hbq⟩ := h.of_ask q id hid
      obtain ⟨d, hd, hdid, hdp⟩ := h.of_ask p _ hmem
      rw [← hbq, ← hdp, hasking.ask_eq hb hd (hbid.trans (heq.trans hdid.symm))]
  refine ⟨fun q id hid => h.of_ask q id (hsub q id hid).1, fun q id hid b hb => ?_, fun q => ?_,
    fun b hb => ?_⟩
  · rcases mem_append_singleton.1 hb with hb | rfl
    · exact h.undecided q id (hsub q id hid).1 b hb
    · exact fun heq => (hsub q id hid).2 (heq.symm.trans ha)
  · by_cases hq : q = p
    · rw [hq, State.setCollectors, State.members_setMember_self]
      exact hnodup.2
    · rw [State.setCollectors, s.members_setMember_of_ne _ hq]
      exact h.nodup q
  · rcases mem_append_singleton.1 hb with hb | rfl
    · exact h.announced_asked b hb
    · obtain ⟨d, hd, hdid, -⟩ := h.of_ask p _ hmem
      exact ⟨d, hd, hdid.trans ha.symm⟩

/-! ## The votes that are counted -/

/-- A collector has, or is about to count, only answers that were given. -/
structure Sound (answered : List Proposal) (c : Collector) : Prop where
  inbox_mem : ∀ v ∈ c.inbox, v ∈ answered
  votes_mem : ∀ q n, c.votes.numbers.get? q = some n → ⟨q, c.votes.id, n⟩ ∈ answered

/-- What is on its way to collectors, or has come to them, was answered. -/
structure Counting (answered : List Proposal) (proposals : List (NodeId × Proposal))
    (members : NodeId → Member) : Prop where
  proposals_mem : ∀ p v, (p, v) ∈ proposals → v ∈ answered
  sound : ∀ p, ∀ c ∈ (members p).collectors, Sound answered c

theorem Sound.of_counts {c c' : Collector} (h : Sound answered c)
    (hcounts : Collector.Counts c.inbox c c') (hinbox : c'.inbox = []) : Sound answered c' := by
  refine ⟨fun v hv => ?_, fun q n hq => ?_⟩
  · rw [hinbox] at hv
    exact absurd hv List.not_mem_nil
  · rw [hcounts.id_eq]
    rcases hcounts.sound q n hq with hq | hq
    · exact h.votes_mem q n hq
    · exact h.inbox_mem _ hq

theorem Counting.init (g : Roster) : Counting [] [] (State.init g).members where
  proposals_mem _ _ hv := absurd hv List.not_mem_nil
  sound _ _ hc := absurd hc List.not_mem_nil

theorem Counting.mono {ms ms' : NodeId → Member} (h : Counting answered proposals ms)
    (hanswered : ∀ v ∈ answered, v ∈ answered')
    (hproposals : ∀ p v, (p, v) ∈ proposals' → v ∈ answered')
    (hcollectors : ∀ p, (ms' p).collectors = (ms p).collectors) :
    Counting answered' proposals' ms' := by
  refine ⟨hproposals, fun p c hc => ?_⟩
  rw [hcollectors] at hc
  have hsound := h.sound p c hc
  exact ⟨fun v hv => hanswered v (hsound.inbox_mem v hv),
    fun q n hq => hanswered _ (hsound.votes_mem q n hq)⟩

theorem Counting.setMember {s : State} (h : Counting answered proposals s.members) {p : NodeId}
    {m : Member} (hm : ∀ c ∈ m.collectors, Sound answered c) :
    Counting answered proposals (s.setMember p m).members := by
  refine ⟨h.proposals_mem, fun q c hc => ?_⟩
  by_cases hq : q = p
  · rw [hq, State.members_setMember_self] at hc
    exact hm c hc
  · rw [s.members_setMember_of_ne m hq] at hc
    exact h.sound q c hc

theorem Counting.collect {s : State} (h : Counting answered proposals s.members) {p : NodeId}
    {v : Proposal} (hv : v ∈ answered) :
    Counting answered proposals (s.setMember p ((s.members p).collect v)).members := by
  refine h.setMember fun c hc => ?_
  obtain ⟨d, hd, rfl⟩ := List.mem_map.1 hc
  have hsound := h.sound p d hd
  split
  · refine ⟨fun w hw => ?_, hsound.votes_mem⟩
    rcases mem_append_singleton.1 hw with hw | rfl
    · exact hsound.inbox_mem w hw
    · exact hv
  · exact hsound

theorem pollIds_collect (m : Member) (v : Proposal) : pollIds (m.collect v) = pollIds m := by
  unfold pollIds Member.collect
  rw [List.map_map]
  refine List.map_congr_left fun c _ => ?_
  show (if c.votes.id = v.id then _ else c : Collector).votes.id = c.votes.id
  split <;> rfl

/-! ## The agreements -/

/-- The number of an agreement was proposed by its voter, and nobody who can still act, or was
    handed the agreement, has proposed a larger one. -/
structure Decided (g : Roster) (running : NodeId → Prop) (answered : List Proposal)
    (announced : List Agreement) (taken : List (NodeId × Agreement)) : Prop where
  winner_mem : ∀ a ∈ announced, ⟨a.voter, a.id, a.number⟩ ∈ answered
  covered : ∀ a ∈ announced, ∀ p ∈ g.ids, running p ∨ (p, a) ∈ taken →
    ∃ n, n ≤ a.number ∧ ⟨p, a.id, n⟩ ∈ answered

variable {running running' : NodeId → Prop}

theorem Decided.mono (h : Decided g running answered announced taken)
    (hrunning : ∀ p, running' p → running p) (hanswered : ∀ v ∈ answered, v ∈ answered') :
    Decided g running' answered' announced taken := by
  refine ⟨fun a ha => hanswered _ (h.winner_mem a ha), fun a ha p hp hor => ?_⟩
  obtain ⟨n, hle, hn⟩ := h.covered a ha p hp (hor.imp (hrunning p) id)
  exact ⟨n, hle, hanswered _ hn⟩

theorem Decided.take (h : Decided g running answered announced taken) {p : NodeId} {a : Agreement}
    (hrun : running p) : Decided g running answered announced (taken ++ [(p, a)]) := by
  refine ⟨h.winner_mem, fun b hb q hq hor => ?_⟩
  rcases hor with hq' | hq'
  · exact h.covered b hb q hq (Or.inl hq')
  · rcases mem_append_singleton.1 hq' with hq' | heq
    · exact h.covered b hb q hq (Or.inr hq')
    · obtain ⟨rfl, rfl⟩ := Prod.mk.inj heq
      exact h.covered b hb q hq (Or.inl hrun)

/-- A collector that is over agrees on a number that covers every running member. -/
theorem Decided.announce (h : Decided g running answered announced taken) {live : List NodeId}
    {c c' : Collector} {changes : Nat} (hsound : Sound answered c)
    (hadvance : c.advance live changes = (true, c'))
    (hlive : ∀ p ∈ g.ids, running p → p ∈ live) {a : Agreement}
    (ha : c'.votes.agreement = some a) (hfresh : ∀ p, (p, a) ∉ taken) :
    Decided g running answered (announced ++ [a]) taken ∧ a.id = c.votes.id := by
  have hcounts := c.advance_counts live changes
  have hover : (c.advance live changes).2.isComplete live = true :=
    Collector.advance_of_over (by rw [hadvance])
  rw [hadvance] at hcounts hover
  obtain ⟨hid, hwinner, hmax⟩ := Votes.agreement_eq_some ha
  -- What was counted was in the inbox, or had been counted before.
  have hvotes : ∀ q n, c'.votes.numbers.get? q = some n → ⟨q, c'.votes.id, n⟩ ∈ answered := by
    intro q n hq
    rw [hcounts.id_eq]
    rcases hcounts.sound q n hq with hq | hq
    · exact hsound.votes_mem q n hq
    · exact hsound.inbox_mem _ hq
  refine ⟨⟨fun b hb => ?_, fun b hb p hp hor => ?_⟩, hid.trans hcounts.id_eq⟩
  · rcases mem_append_singleton.1 hb with hb | rfl
    · exact h.winner_mem b hb
    · rw [hid]
      exact hvotes _ _ hwinner
  · rcases mem_append_singleton.1 hb with hb | rfl
    · exact h.covered b hb p hp hor
    -- The collection is over only when all live members have voted, so this one has.
    · have hrun : running p := hor.resolve_right (hfresh p)
      unfold Collector.isComplete at hover
      rw [Bool.and_eq_true] at hover
      obtain ⟨n, hn⟩ := (c'.votes.covers_iff live).1 hover.2 p (hlive p hp hrun)
      refine ⟨n, Votes.number_le_of_not_beats (hmax p n hn), ?_⟩
      rw [hid]
      exact hvotes p n hn

end AgreedOrder.Protocol
