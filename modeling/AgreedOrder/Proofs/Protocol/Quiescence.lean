/-
  AgreedOrder.Proofs.Protocol.Quiescence

  Where a group comes to rest. Once nothing is on its way to a running member
  and no running member has anything left to do, every message of a running
  sender is agreed, no running member holds anything, and each has delivered
  what it answered unless the sender has left.

    * `State.Quiet` — nothing is on its way.
    * `Settled` — and nothing is left to do.
-/

import AgreedOrder.Proofs.Protocol.Progress

namespace AgreedOrder.Protocol

open Sequencer

variable {g : Roster} {s : State}

/-! ## Nothing on its way -/

/-- Nothing is on its way to a running member. -/
structure State.Quiet (g : Roster) (s : State) : Prop where
  asks : ∀ x ∈ s.asks, ¬s.Running x.1
  proposals : ∀ x ∈ s.proposals, ¬s.Running x.1
  agreements : ∀ x ∈ s.agreements, ¬s.Running x.1
  inboxes : ∀ p ∈ g.ids, s.Running p → ∀ c ∈ (s.members p).collectors, c.inbox = []

/-- Every running member has taken out whoever crashed, and has looked at what it holds and at the
    votes it collects since then. -/
structure State.Noticed (g : Roster) (s : State) : Prop where
  live : ∀ p ∈ g.ids, s.Running p → ∀ q ∈ (s.members p).peers.liveIds, s.Running q
  held : ∀ p ∈ g.ids, s.Running p → (s.members p).seenChanges = (s.members p).peers.changes
  votes : ∀ p ∈ g.ids, s.Running p → ∀ c ∈ (s.members p).collectors,
    c.seenChanges = (s.members p).peers.changes

instance (g : Roster) (s : State) : Decidable (s.Quiet g) :=
  decidable_of_iff
    ((∀ x ∈ s.asks, ¬s.Running x.1) ∧ (∀ x ∈ s.proposals, ¬s.Running x.1) ∧
      (∀ x ∈ s.agreements, ¬s.Running x.1) ∧
      ∀ p ∈ g.ids, s.Running p → ∀ c ∈ (s.members p).collectors, c.inbox = [])
    ⟨fun h => ⟨h.1, h.2.1, h.2.2.1, h.2.2.2⟩, fun h => ⟨h.1, h.2, h.3, h.4⟩⟩

instance (g : Roster) (s : State) : Decidable (s.Noticed g) :=
  decidable_of_iff
    ((∀ p ∈ g.ids, s.Running p → ∀ q ∈ (s.members p).peers.liveIds, s.Running q) ∧
      (∀ p ∈ g.ids, s.Running p → (s.members p).seenChanges = (s.members p).peers.changes) ∧
      ∀ p ∈ g.ids, s.Running p → ∀ c ∈ (s.members p).collectors,
        c.seenChanges = (s.members p).peers.changes)
    ⟨fun h => ⟨h.1, h.2.1, h.2.2⟩, fun h => ⟨h.1, h.2, h.3⟩⟩

/-! ## Nothing left to do -/

/-- Nothing is on its way, and no running member could go on: no collection is complete, and
    nothing that is held is free. -/
structure Settled (g : Roster) (s : State) : Prop where
  quiet : s.Quiet g
  live : ∀ p ∈ g.ids, s.Running p → ∀ q, (s.members p).peers.isLive q = true → s.Running q
  incomplete : ∀ p ∈ g.ids, s.Running p → ∀ c ∈ (s.members p).collectors,
    c.isComplete (s.members p).peers.liveIds = false
  not_free : ∀ p ∈ g.ids, s.Running p → ∀ id x, (s.members p).sequencer.held? id = some x →
    ¬(s.members p).sequencer.Free (s.members p).peers.isLive x

/-- A quiet group in which every crash was noticed is settled. -/
theorem Progress.settled_of_noticed (h : Progress g s) (hquiet : s.Quiet g)
    (hnoticed : s.Noticed g) : Settled g s where
  quiet := hquiet
  live p hp hrun q hlive := hnoticed.live p hp hrun q (((s.members p).peers.mem_liveIds q).2 hlive)
  incomplete p hp hrun c hc := by
    rw [Bool.eq_false_iff]
    intro hcomplete
    exact ((h.attentive p).complete_stale c hc hcomplete).1 (hnoticed.votes p hp hrun c hc)
  not_free p hp hrun id x hx hfree :=
    ((h.attentive p).free_stale id x hx hfree).1 (hnoticed.held p hp hrun)

/-- A quiet group in which nobody crashed is settled. -/
theorem Progress.settled_of_running (h : Progress g s) (hi : Invariant g s) (hquiet : s.Quiet g)
    (hrun : ∀ p ∈ g.ids, s.Running p) : Settled g s where
  quiet := hquiet
  live p _ _ q hlive := hrun q (hi.live.mem_of_isLive p q hlive)
  incomplete p _ _ c hc := by
    rw [Bool.eq_false_iff]
    intro hcomplete
    obtain ⟨q, hq, hdead⟩ := ((h.attentive p).complete_stale c hc hcomplete).2
    exact hdead (hrun q hq)
  not_free p _ _ id x hx hfree := by
    obtain ⟨q, hq, hdead⟩ := ((h.attentive p).free_stale id x hx hfree).2
    exact hdead (hrun q hq)

/-! ## What has come about -/

/-- Every running member has answered every ask of a running sender. -/
theorem Settled.answered (hs : Settled g s) (h : Progress g s) {ask : Ask} (hask : ask ∈ s.asked)
    (hsender : s.Running ask.sender) {p : NodeId} (hp : p ∈ g.ids) (hrun : s.Running p) :
    Answered s.answered p ask.id :=
  h.asks.had_of_had hs.quiet.asks hask (Or.inr rfl) hsender hp hrun

/-- Every message of a running sender is agreed. -/
theorem Settled.announced (hs : Settled g s) (h : Progress g s) (hi : Invariant g s) {ask : Ask}
    (hask : ask ∈ s.asked) (hsender : s.Running ask.sender) :
    ∃ a ∈ s.announced, a.id = ask.id := by
  rcases h.polled ask hask hsender with hpoll | hdone
  · -- All live members have voted, so the collection is complete.
    obtain ⟨c, hc, hcid⟩ := List.mem_map.1 hpoll
    have hmember := hi.asking.sender_mem ask hask
    have hvoted : ∀ q, (s.members ask.sender).peers.isLive q = true →
        ∃ n, c.votes.numbers.get? q = some n := by
      intro q hlive
      have hq := hi.live.mem_of_isLive _ q hlive
      have hqrun := hs.live _ hmember hsender q hlive
      obtain ⟨n, hn⟩ := hs.answered h hask hsender hq hqrun
      rcases h.voted _ hsender c hc _ hn hcid.symm hqrun with hway | hinbox | hvote
      · exact absurd hsender (hs.quiet.proposals _ hway)
      · rw [hs.quiet.inboxes _ hmember hsender c hc] at hinbox
        exact absurd hinbox List.not_mem_nil
      · exact hvote
    obtain ⟨n, hn⟩ := hvoted _ (hi.live.isLive_of_running _ _ hmember hsender)
    have hcomplete : c.isComplete (s.members ask.sender).peers.liveIds = true := by
      unfold Collector.isComplete
      rw [Bool.and_eq_true, decide_eq_true_eq, Votes.covers_iff]
      refine ⟨Votes.size_pos_of_get? hn, fun q hq => hvoted q ?_⟩
      exact (PeerTable.mem_liveIds _ q).1 hq
    rw [hs.incomplete _ hmember hsender c hc] at hcomplete
    cases hcomplete
  · exact hdone

/-- Every running member was handed an agreement on a message of a running sender. -/
theorem Settled.taken (hs : Settled g s) (h : Progress g s) {ask : Ask} (hask : ask ∈ s.asked)
    (hsender : s.Running ask.sender) {a : Agreement} (ha : a ∈ s.announced) (hid : a.id = ask.id)
    {p : NodeId} (hp : p ∈ g.ids) (hrun : s.Running p) : (p, a) ∈ s.taken :=
  h.agreements.had_of_had hs.quiet.agreements ha (Or.inr ⟨ask, hask, hid.symm, rfl⟩) hsender hp
    hrun

/-- No running member holds anything. -/
theorem Settled.held?_eq_none (hs : Settled g s) (h : Progress g s) (hi : Invariant g s)
    {p : NodeId} (hp : p ∈ g.ids) (hrun : s.Running p) (id : MessageId) :
    (s.members p).sequencer.held? id = none := by
  cases hx : (s.members p).sequencer.held? id with
  | none => rfl
  | some x =>
    exfalso
    refine hs.not_free p hp hrun id x hx fun b hb => ?_
    -- What blocks has a running sender, so its agreement was handed to this member.
    obtain ⟨ask, hask, haskid, -, hsender⟩ := (hi.placed p).held_asked _ b hb.held
    have hlive := hb.live_sender
    rw [hsender] at hlive
    have hsrun := hs.live p hp hrun _ hlive
    obtain ⟨a, ha, haid⟩ := hs.announced h hi hask hsrun
    have htaken := hs.taken h hask hsrun ha haid hp hrun
    exact absurd (haid.trans haskid) ((hi.placed p).held_open _ b hb.held hb.isOpen a htaken)

/-- A running member has delivered every message that it answered and whose sender runs. -/
theorem Settled.delivered (hs : Settled g s) (h : Progress g s) (hi : Invariant g s) {ask : Ask}
    (hask : ask ∈ s.asked) (hsender : s.Running ask.sender) {p : NodeId} (hp : p ∈ g.ids)
    (hrun : s.Running p) : ∃ d ∈ s.delivered p, d.id = ask.id := by
  rcases (hi.placed p).kept ask.id (hs.answered h hask hsender hp hrun) with hheld | hd | hleft
  · obtain ⟨x, hx⟩ := hheld
    rw [hs.held?_eq_none h hi hp hrun] at hx
    cases hx
  · exact hd
  · obtain ⟨b, hb, hbid, hdead⟩ := hleft
    have hlive := hi.live.isLive_of_running p _ (hi.asking.sender_mem ask hask) hsender
    rw [hi.asking.ask_eq hb hask hbid, hlive] at hdead
    cases hdead

end AgreedOrder.Protocol
