/-
  AgreedOrder.Proofs.Protocol.Membership

  Who counts as live in a group whose members are taken out only after they
  crashed: every running member is live everywhere, and nobody outside the
  group is live anywhere.

    * `setMember_congr` — what a step at one member leaves alone.
    * `LiveMaps.step` — the live members after any step.
-/

import AgreedOrder.Proofs.PeerTable
import AgreedOrder.Proofs.Protocol.Step

namespace AgreedOrder.Protocol

variable {g : Roster} {s s' : State}

/-! ## Changing one member -/

@[simp] theorem State.members_setMember_self (s : State) (p : NodeId) (m : Member) :
    (s.setMember p m).members p = m := if_pos rfl

theorem State.members_setMember_of_ne (s : State) {p q : NodeId} (m : Member) (h : q ≠ p) :
    (s.setMember p m).members q = s.members q := if_neg h

/-- What a change of one member leaves alone there, it leaves alone everywhere. -/
theorem State.setMember_congr {β : Type} (f : Member → β) {p : NodeId} {m : Member}
    (h : f m = f (s.members p)) (q : NodeId) :
    f ((s.setMember p m).members q) = f (s.members q) := by
  by_cases hq : q = p
  · rw [hq, members_setMember_self, h]
  · rw [s.members_setMember_of_ne m hq]

/-- A crash leaves all others running as before. -/
theorem State.running_of_stop {p q : NodeId}
    (h : (s.setMember p (s.members p).stop).Running q) : s.Running q := by
  by_cases hq : q = p
  · rw [hq, Running, members_setMember_self] at h
    cases h
  · rw [Running, s.members_setMember_of_ne _ hq] at h
    exact h

theorem State.running_congr (h : ∀ q, (s'.members q).stopped = (s.members q).stopped)
    (q : NodeId) : s'.Running q ↔ s.Running q := by
  unfold Running
  rw [h q]

/-- A look at the group releases messages, and changes nothing else that others see. -/
theorem watchGroup_frame (m : Member) : m.watchGroup.peers = m.peers ∧
    m.watchGroup.stopped = m.stopped ∧ m.watchGroup.collectors = m.collectors := by
  unfold Member.watchGroup
  split <;> exact ⟨rfl, rfl, rfl⟩

/-! ## Who is live -/

/-- Every member counts all running members as live, and nobody outside the group. -/
structure LiveMaps (g : Roster) (members : NodeId → Member) : Prop where
  isLive_of_running : ∀ p q, q ∈ g.ids → (members q).stopped = false →
    (members p).peers.isLive q = true
  mem_of_isLive : ∀ p q, (members p).peers.isLive q = true → q ∈ g.ids

theorem LiveMaps.congr {ms ms' : NodeId → Member} (h : LiveMaps g ms)
    (hpeers : ∀ q, (ms' q).peers = (ms q).peers)
    (hstopped : ∀ q, (ms' q).stopped = (ms q).stopped) : LiveMaps g ms' := by
  refine ⟨fun p q hq hrun => ?_, fun p q hlive => ?_⟩
  · rw [hpeers]
    exact h.isLive_of_running p q hq (by rw [← hstopped]; exact hrun)
  · rw [hpeers] at hlive
    exact h.mem_of_isLive p q hlive

theorem LiveMaps.setMember (h : LiveMaps g s.members) {p : NodeId} {m : Member}
    (hpeers : m.peers = (s.members p).peers) (hstopped : m.stopped = (s.members p).stopped) :
    LiveMaps g (s.setMember p m).members :=
  h.congr (State.setMember_congr Member.peers hpeers)
    (State.setMember_congr Member.stopped hstopped)

theorem LiveMaps.crash (h : LiveMaps g s.members) (p : NodeId) :
    LiveMaps g (s.setMember p (s.members p).stop).members := by
  have hpeers := State.setMember_congr (s := s) (p := p) (m := (s.members p).stop) Member.peers rfl
  refine ⟨fun a q hq hrun => ?_, fun a q hlive => ?_⟩
  · rw [hpeers]
    exact h.isLive_of_running a q hq (State.running_of_stop hrun)
  · rw [hpeers] at hlive
    exact h.mem_of_isLive a q hlive

theorem LiveMaps.eject (h : LiveMaps g s.members) {p q : NodeId} (crashed : ¬s.Running q) :
    LiveMaps g (s.setMember p ((s.members p).eject q).2).members := by
  have hstopped :=
    State.setMember_congr (s := s) (p := p) (m := ((s.members p).eject q).2) Member.stopped rfl
  -- All but the one that is taken out are live as before.
  have hpeers : ∀ a r, r ≠ q →
      ((s.setMember p ((s.members p).eject q).2).members a).peers.isLive r
        = (s.members a).peers.isLive r := by
    intro a r hr
    by_cases hap : a = p
    · rw [hap, State.members_setMember_self]
      exact (PeerTable.isLive_remove ..).trans (by rw [decide_eq_false hr]; rfl)
    · rw [s.members_setMember_of_ne _ hap]
  refine ⟨fun a r hr hrun => ?_, fun a r hlive => ?_⟩
  · rw [hstopped] at hrun
    have hrq : r ≠ q := fun hrq => crashed (hrq ▸ hrun)
    rw [hpeers a r hrq]
    exact h.isLive_of_running a r hr hrun
  · by_cases hap : a = p
    · rw [hap, State.members_setMember_self] at hlive
      have hrem := PeerTable.isLive_remove (s.members p).peers q r
      rw [show ((s.members p).eject q).2.peers.isLive r = _ from hrem, Bool.and_eq_true] at hlive
      exact h.mem_of_isLive p r hlive.2
    · rw [s.members_setMember_of_ne _ hap] at hlive
      exact h.mem_of_isLive a r hlive

theorem LiveMaps.init (g : Roster) : LiveMaps g (State.init g).members :=
  ⟨fun p q hq _ => (Member.isLive_init p g.nodes g.capacity q).2 hq,
    fun p q hlive => (Member.isLive_init p g.nodes g.capacity q).1 hlive⟩

theorem LiveMaps.step (h : LiveMaps g s.members) (hs : Step g s s') : LiveMaps g s'.members := by
  cases hs with
  | submit => exact h.setMember rfl rfl
  | takeAsk => exact h.setMember rfl rfl
  | takeProposal => exact h.setMember rfl rfl
  | goOn => exact h.setMember rfl rfl
  | announce => exact h.setMember rfl rfl
  | takeAgreement => exact h.setMember rfl rfl
  | @watch p =>
    obtain ⟨hpeers, hstopped, -⟩ := watchGroup_frame (s.members p)
    exact h.setMember hpeers hstopped
  | crash => exact h.crash _
  | eject _ crashed => exact h.eject crashed
  | loseAsk => exact h
  | loseAgreement => exact h
  | dropAsk => exact h
  | dropAgreement => exact h
  | dropProposal => exact h

end AgreedOrder.Protocol
