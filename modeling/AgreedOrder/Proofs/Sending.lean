/-
  AgreedOrder.Proofs.Sending

  What sending does and what it leaves alone. A frame that goes into queues
  changes these and the counters, and nothing else of a member.

    * `Member.Alike` — members that differ in queues and counters alone.
    * `alike_multicast`, `alike_unicast` — sending.
    * `multicast_ne_failed` — a running member may have to wait, no more.
    * `waiting_multicast`, `waiting_unicast` — the line that a frame leaves in queues.
-/

import AgreedOrder.Member.Broadcast
import AgreedOrder.Proofs.PeerTable

namespace AgreedOrder

namespace PeerTable

theorem isLive_enqueue (t : PeerTable) (id : NodeId) (line : String) (q : NodeId) :
    (t.enqueue id line).2.isLive q = t.isLive q ∧ (t.enqueue id line).2.changes = t.changes := by
  rcases t.enqueue_cases id line with ⟨b, -, -, heq⟩ | ⟨o, -, heq, -⟩
  · rw [heq]
    exact ⟨rfl, rfl⟩
  · rw [heq]
    exact ⟨rfl, rfl⟩

theorem isLive_countFor {t t' : PeerTable} {id : NodeId} {line : String}
    (h : t.countFor id line = .ok t') (q : NodeId) :
    t'.isLive q = t.isLive q ∧ t'.changes = t.changes := by
  unfold countFor at h
  cases hpeer : t.peers.get? id with
  | none =>
    rw [hpeer] at h
    cases h
  | some peer =>
    rw [hpeer] at h
    cases h
    refine ⟨?_, rfl⟩
    show (t.peers.insert id _).contains q = t.peers.contains q
    rw [SortedMap.contains_insert]
    by_cases hq : q = id
    · rw [hq, decide_eq_true rfl, Bool.true_or, SortedMap.contains, hpeer]
      rfl
    · rw [decide_eq_false hq, Bool.false_or]

/-- Counting a line leaves the queues alone. -/
theorem outboxes_countFor {t t' : PeerTable} {id : NodeId} {line : String}
    (h : t.countFor id line = .ok t') : t'.outboxes = t.outboxes := by
  unfold countFor at h
  split at h
  · cases h
  · cases h
    rfl

/-- A line for a member that does not count as live is refused. -/
theorem countFor_of_not_live {t : PeerTable} {id : NodeId} (h : t.isLive id = false)
    (line : String) : t.countFor id line = .error (.unknownPeer id) := by
  have hpeer : t.peers.get? id = none := by
    rw [isLive, SortedMap.contains] at h
    exact Option.isNone_iff_eq_none.1 (Option.isSome_eq_false_iff.1 h)
  unfold countFor
  rw [hpeer]

end PeerTable

namespace Member

/-- Members that differ in their queues, their counters and what they have seen flooded alone. -/
structure Alike (m m' : Member) : Prop where
  self : m'.self = m.self
  stopped : m'.stopped = m.stopped
  sequencer : m'.sequencer = m.sequencer
  collectors : m'.collectors = m.collectors
  released : m'.released = m.released
  seenChanges : m'.seenChanges = m.seenChanges
  changes : m'.peers.changes = m.peers.changes
  isLive : ∀ q, m'.peers.isLive q = m.peers.isLive q

variable {m m' m'' : Member}

theorem alike_refl (m : Member) : Alike m m := ⟨rfl, rfl, rfl, rfl, rfl, rfl, rfl, fun _ => rfl⟩

theorem Alike.trans (h : Alike m m') (h' : Alike m' m'') : Alike m m'' :=
  ⟨h'.self.trans h.self, h'.stopped.trans h.stopped, h'.sequencer.trans h.sequencer,
    h'.collectors.trans h.collectors, h'.released.trans h.released,
    h'.seenChanges.trans h.seenChanges, h'.changes.trans h.changes,
    fun q => (h'.isLive q).trans (h.isLive q)⟩

theorem Alike.liveIds (h : Alike m m') : m'.peers.liveIds = m.peers.liveIds :=
  SortedMap.keys_eq_of_contains h.isLive

/-- A change of the queues and counters. -/
theorem alike_peers (m : Member) {t : PeerTable} (hchanges : t.changes = m.peers.changes)
    (hlive : ∀ q, t.isLive q = m.peers.isLive q) : Alike m { m with peers := t } :=
  ⟨rfl, rfl, rfl, rfl, rfl, rfl, hchanges, hlive⟩

theorem alike_enqueueAll (line : String) (targets : List NodeId) (m : Member) :
    Alike m (enqueueAll line targets m).2 := by
  induction targets generalizing m with
  | nil => exact alike_refl m
  | cons id rest ih =>
    rw [enqueueAll]
    split
    · exact alike_refl m
    · rename_i peers _ heq
      have hlive (q : NodeId) := m.peers.isLive_enqueue id line q
      rw [heq] at hlive
      exact (alike_peers m (hlive "").2 fun q => (hlive q).1).trans (ih _)

theorem alike_multicast (m : Member) (path : ControlPath) (body : Bytes) :
    Alike m (m.multicast path body).2 := by
  have hcounted : Alike m { m with peers := m.peers.countForAll (m.frameLine path body) } :=
    alike_peers m rfl fun q => m.peers.isLive_countForAll _ q
  exact hcounted.trans (alike_enqueueAll _ _ _)

theorem alike_unicast (m : Member) (target : NodeId) (path : ControlPath) (body : Bytes) :
    Alike m (m.unicast target path body).2 := by
  unfold unicast
  dsimp only
  cases hcount : m.peers.countFor target (m.frameLine path body) with
  | error e => exact alike_refl m
  | ok peers =>
    have hcounted := PeerTable.isLive_countFor hcount
    have hfirst : Alike m { m with peers } := alike_peers m (hcounted "").2 fun q => (hcounted q).1
    have hqueued (q : NodeId) := peers.isLive_enqueue target (m.frameLine path body) q
    dsimp only
    split
    · rename_i queued heq
      rw [heq] at hqueued
      exact hfirst.trans (alike_peers { m with peers } (hqueued "").2 fun q => (hqueued q).1)
    · exact hfirst
    · exact hfirst

/-- A multicast of a running member is not refused: at most, it waits. -/
theorem multicast_ne_failed (hrun : m.stopped = false) (path : ControlPath) (body : Bytes)
    (e : GroupError) : (m.multicast path body).1 ≠ .failed e := by
  have hall (line : String) (targets : List NodeId) (m : Member) (hrun : m.stopped = false) :
      (enqueueAll line targets m).1 ≠ .failed e := by
    induction targets generalizing m with
    | nil => exact nofun
    | cons id rest ih =>
      rw [enqueueAll]
      split
      · simp only [whenFull, hrun]
        exact nofun
      · exact ih _ hrun
  exact hall _ _ _ hrun

/-- A multicast of a running member is done, or it waits. -/
theorem multicast_eq_done (hrun : m.stopped = false) {path : ControlPath} {body : Bytes}
    (h : (m.multicast path body).1 ≠ .blocked) :
    m.multicast path body = (.done, (m.multicast path body).2) := by
  have hnot := multicast_ne_failed hrun path body
  rcases hm : m.multicast path body with ⟨outcome, m'⟩
  rw [hm] at h hnot
  cases outcome with
  | done => rfl
  | blocked => exact absurd rfl h
  | failed e => exact absurd rfl (hnot e)

/-- A line is put into queues without a wait if the first one has room, and then the others. -/
theorem enqueueAll_cons_eq_done {line : String} {id : NodeId} {rest : List NodeId}
    (h : enqueueAll line (id :: rest) m = (.done, m')) :
    (m.peers.enqueue id line).1 ≠ .full ∧
      enqueueAll line rest { m with peers := (m.peers.enqueue id line).2 } = (.done, m') := by
  rw [enqueueAll] at h
  split at h
  -- A member that waits, or is refused, is not done.
  · have hwait := (Prod.mk.inj h).1
    unfold whenFull at hwait
    split at hwait <;> cases hwait
  · rename_i o peers hroom heq
    rw [heq]
    exact ⟨fun hfull => hroom hfull, h⟩

/-- An answer goes out to a live member only. -/
theorem unicast_of_not_live {target : NodeId} (h : m.peers.isLive target = false)
    (path : ControlPath) (body : Bytes) :
    m.unicast target path body = (.failed (.unknownPeer target), m) := by
  unfold unicast
  dsimp only
  rw [PeerTable.countFor_of_not_live h]

/-! ## What waits -/

/-- A line that is put into queues one after the other, without a full one among them, waits in
    each of them that is read, and in no other. -/
theorem waiting_enqueueAll {line : String} {targets : List NodeId}
    (hnodup : targets.Nodup) (h : enqueueAll line targets m = (.done, m')) (q : NodeId) :
    m'.peers.waiting q
      = if q ∈ targets ∧ m.peers.hasReader q = true then m.peers.waiting q ++ [line]
        else m.peers.waiting q := by
  induction targets generalizing m with
  | nil =>
    cases h
    simp
  | cons id rest ih =>
    obtain ⟨hid, hrest⟩ := List.nodup_cons.1 hnodup
    rw [enqueueAll] at h
    rcases m.peers.enqueue_cases id line with ⟨b, hb, hreader, heq⟩ | ⟨r, hr, heq, hclosed⟩
    · simp only [heq] at h
      rw [ih hrest h, PeerTable.hasReader_pushLine, PeerTable.waiting_pushLine hb]
      have hread : m.peers.hasReader id = true := by
        simp [PeerTable.hasReader, hb, hreader]
      by_cases hq : q = id
      · subst hq
        simp [hid, hread]
      · simp [hq]
    · cases r with
      | queued => exact absurd rfl hr
      | full =>
        simp only [heq, whenFull] at h
        split at h <;> cases h
      | closed =>
        simp only [heq] at h
        rw [ih hrest h]
        by_cases hq : q = id
        · subst hq
          simp [hid, hclosed rfl]
        · simp [hq]

theorem waiting_multicast {path : ControlPath} {body : Bytes}
    (h : m.multicast path body = (.done, m')) {q : NodeId} (hlive : m.peers.isLive q = true)
    (hreader : m.peers.hasReader q = true) :
    m'.peers.waiting q = m.peers.waiting q ++ [m.frameLine path body] := by
  rw [waiting_enqueueAll m.peers.nodup_liveIds h q]
  exact if_pos ⟨(m.peers.mem_liveIds q).2 hlive, hreader⟩

theorem waiting_unicast {target : NodeId} {path : ControlPath} {body : Bytes}
    (h : m.unicast target path body = (.done, m')) :
    m'.peers.waiting target = m.peers.waiting target ++ [m.frameLine path body] := by
  unfold unicast at h
  dsimp only at h
  cases hcount : m.peers.countFor target (m.frameLine path body) with
  | error e =>
    rw [hcount] at h
    cases h
  | ok peers =>
    have houtboxes : peers.outboxes = m.peers.outboxes := PeerTable.outboxes_countFor hcount
    have hwaiting : peers.waiting target = m.peers.waiting target := by
      rw [PeerTable.waiting, houtboxes, ← PeerTable.waiting]
    rw [hcount] at h
    dsimp only at h
    rcases peers.enqueue_cases target (m.frameLine path body) with
      ⟨b, hb, -, heq⟩ | ⟨r, hr, heq, -⟩
    · rw [heq] at h
      cases h
      rw [PeerTable.waiting_pushLine hb, if_pos rfl, hwaiting]
    · rw [heq] at h
      cases r with
      | queued => exact absurd rfl hr
      | full =>
        simp only [whenFull] at h
        split at h <;> cases h
      | closed => cases h

end Member

end AgreedOrder
