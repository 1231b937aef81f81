/-
  AgreedOrder.Proofs.Protocol.Attention

  A member leaves nothing undone that it could do. A collection of votes that
  is complete, and a held message that is free, are noticed at once, unless
  the group has shrunk since the member last looked; and the group shrinks
  only after a crash.

    * `Attentive` — what is still to do was caused by a crash.
-/

import AgreedOrder.Proofs.Protocol.Placement
import AgreedOrder.Proofs.Votes

namespace AgreedOrder.Protocol

open Sequencer

variable {crashed crashed' : Prop} {m : Member}

/-- A collector is complete, or a held message is free, only if a change of the group was not taken
    into account yet, and someone has crashed. -/
structure Attentive (crashed : Prop) (m : Member) : Prop where
  collector_seen : ∀ c ∈ m.collectors, c.seenChanges ≤ m.peers.changes
  complete_stale : ∀ c ∈ m.collectors, c.isComplete m.peers.liveIds = true →
    c.seenChanges ≠ m.peers.changes ∧ crashed
  seen : m.seenChanges ≤ m.peers.changes
  free_stale : ∀ id x, m.sequencer.held? id = some x → m.sequencer.Free m.peers.isLive x →
    m.seenChanges ≠ m.peers.changes ∧ crashed

theorem Attentive.init (p : NodeId) (nodes : List Node) (capacity : Nat) :
    Attentive crashed (Member.init p nodes capacity) where
  collector_seen _ hc := absurd hc List.not_mem_nil
  complete_stale _ hc := absurd hc List.not_mem_nil
  seen := Nat.zero_le _
  free_stale _ _ hx := nomatch hx

theorem Attentive.mono (h : Attentive crashed m) (hcrashed : crashed → crashed') :
    Attentive crashed' m where
  collector_seen := h.collector_seen
  complete_stale c hc hcomplete := (h.complete_stale c hc hcomplete).imp_right hcrashed
  seen := h.seen
  free_stale id x hx hfree := (h.free_stale id x hx hfree).imp_right hcrashed

/-- A new collection has no votes, so it is not complete. -/
theorem Attentive.openCollector (h : Attentive crashed m) (id : MessageId) :
    Attentive crashed (m.openCollector id) := by
  refine ⟨fun c hc => ?_, fun c hc hcomplete => ?_, h.seen, h.free_stale⟩
  · rcases mem_append_singleton.1 hc with hc | rfl
    · exact h.collector_seen c hc
    · exact Nat.le_refl _
  · rcases mem_append_singleton.1 hc with hc | rfl
    · exact h.complete_stale c hc hcomplete
    · cases hcomplete

/-- A proposal that was not counted yet makes no collection complete. -/
theorem Attentive.collect (h : Attentive crashed m) (v : Proposal) :
    Attentive crashed (m.collect v) := by
  refine ⟨fun c hc => ?_, fun c hc hcomplete => ?_, h.seen, h.free_stale⟩
  · obtain ⟨d, hd, rfl⟩ := List.mem_map.1 hc
    have hseen := h.collector_seen d hd
    split <;> exact hseen
  · obtain ⟨d, hd, rfl⟩ := List.mem_map.1 hc
    have hstale := h.complete_stale d hd
    split at hcomplete
    · rename_i hid
      rw [if_pos hid]
      exact hstale hcomplete
    · rename_i hid
      rw [if_neg hid]
      exact hstale hcomplete

theorem Attentive.setCollectors (h : Attentive crashed m) {cs : List Collector}
    (hcs : ∀ c ∈ cs, c ∈ m.collectors ∨
      c.seenChanges = m.peers.changes ∧ c.isComplete m.peers.liveIds = false) :
    Attentive crashed { m with collectors := cs } := by
  refine ⟨fun c hc => ?_, fun c hc hcomplete => ?_, h.seen, h.free_stale⟩
  · rcases hcs c hc with hold | ⟨hseen, -⟩
    · exact h.collector_seen c hold
    · exact Nat.le_of_eq hseen
  · rcases hcs c hc with hold | ⟨-, hopen⟩
    · exact h.complete_stale c hold hcomplete
    · rw [show c.isComplete m.peers.liveIds = true from hcomplete] at hopen
      cases hopen

/-- A collection that goes on after a round has seen every change, and is not complete. -/
theorem Attentive.incomplete_of_goesOn (h : Attentive crashed m) {c c' : Collector}
    (hc : c ∈ m.collectors)
    (hgo : Collector.GoesOn m.peers.liveIds m.peers.changes c c') :
    c'.isComplete m.peers.liveIds = false := by
  rcases hgo.incomplete with heq | hopen
  · rw [Bool.eq_false_iff]
    intro hcomplete
    rw [heq] at hcomplete
    exact (h.complete_stale c hc hcomplete).1 (heq ▸ hgo.seenChanges_eq)
  · exact hopen

/-- After a release nothing that is held is free. -/
theorem Attentive.release {m' : Member} (h : Attentive crashed m)
    (hcoherent : m'.sequencer.Coherent) (hcollectors : m'.collectors = m.collectors)
    (hpeers : m'.peers = m.peers) (hseen : m'.seenChanges ≤ m'.peers.changes) :
    Attentive crashed m'.release where
  collector_seen c hc := by
    have hold : c ∈ m.collectors := hcollectors ▸ hc
    rw [show m'.release.peers = m.peers from hpeers]
    exact h.collector_seen c hold
  complete_stale c hc hcomplete := by
    have hold : c ∈ m.collectors := hcollectors ▸ hc
    rw [show m'.release.peers = m.peers from hpeers] at hcomplete ⊢
    exact h.complete_stale c hold hcomplete
  seen := hseen
  free_stale _ _ hx hfree := absurd hfree ((hcoherent.released _).not_free hx)

theorem Attentive.watchGroup (h : Attentive crashed m) (hcoherent : m.sequencer.Coherent) :
    Attentive crashed m.watchGroup := by
  unfold Member.watchGroup
  split
  · exact h
  · refine h.release ?_ rfl rfl ?_
    · exact hcoherent
    · exact Nat.le_refl _

theorem Attentive.stop (h : Attentive crashed m) : Attentive crashed m.stop :=
  ⟨h.collector_seen, h.complete_stale, h.seen, h.free_stale⟩

/-- Taking a member out makes everything seen so far out of date. -/
theorem Attentive.eject (h : Attentive crashed m) (q : NodeId) (hcrashed : crashed) :
    Attentive crashed (m.eject q).2 := by
  cases hlive : m.peers.isLive q with
  -- Taking out somebody who is not there changes nothing.
  | false =>
    have heq : (m.eject q).2 = m := by
      show { m with peers := (m.peers.remove q).2 } = m
      rw [PeerTable.remove_of_not_live hlive]
    rw [heq]
    exact h
  -- Otherwise the count of changes is ahead of all that was seen.
  | true =>
    have hchanges : (m.eject q).2.peers.changes = m.peers.changes + 1 := by
      show (m.peers.remove q).2.changes = _
      rw [PeerTable.changes_remove, if_pos hlive]
    refine ⟨fun c hc => ?_, fun c hc _ => ?_, ?_, fun _ _ _ _ => ?_⟩
    · have := h.collector_seen c hc
      omega
    · have := h.collector_seen c hc
      refine ⟨?_, hcrashed⟩
      omega
    · show m.seenChanges ≤ _
      have := h.seen
      omega
    · refine ⟨?_, hcrashed⟩
      show m.seenChanges ≠ _
      have := h.seen
      omega

end AgreedOrder.Protocol
