/-
  AgreedOrder.Proofs.Protocol.Handlers

  What the handlers of a member do, apart from the lines in its queues, is what
  it does in the steps of a group: sending changes queues and counters only,
  and a handler that is given what was encoded does what the step says.

    * `alike_onAsk`, `onAgreement_encode`, `onProposal_encode`, `alike_submit`,
      `alike_settle` — the handlers.
    * `step_onAsk`, `step_onAgreement`, `step_onProposal`, `step_submit`,
      `step_eject`, `steps_settle` — the steps that they are.
-/

import AgreedOrder.Proofs.Envelope
import AgreedOrder.Proofs.Protocol.Membership
import AgreedOrder.Proofs.Sending
import AgreedOrder.Proofs.Votes
import Mathlib.Logic.Relation

namespace AgreedOrder

open Json

namespace Member

variable {m m' m'' : Member}

/-! ## Handlers -/

/-- An ask is answered, and the answer is sent to its sender. -/
theorem onAsk_of_decode {body : Bytes} {ask : Ask} (h : Record.decode? body = some ask)
    (m : Member) : m.onAsk body =
      match (m.answer ask).2.unicast ask.sender .proposal (Record.encode (m.answer ask).1) with
      | (.blocked, m) => (.blocked, m)
      | (_, m) => (.done, m) := by
  unfold onAsk
  rw [h]
  rfl

/-- What becomes of an ask is what becomes of the answer: it waits, or it is done. -/
theorem onAsk_outcome {body : Bytes} {ask : Ask} (h : Record.decode? body = some ask)
    (m : Member) :
    (m.onAsk body).2 = ((m.answer ask).2.unicast ask.sender .proposal
        (Record.encode (m.answer ask).1)).2 ∧
      ((m.onAsk body).1 ≠ .blocked → ((m.answer ask).2.unicast ask.sender .proposal
        (Record.encode (m.answer ask).1)).1 ≠ .blocked) := by
  rw [onAsk_of_decode h]
  split
  · rename_i heq
    rw [heq]
    exact ⟨rfl, id⟩
  · rename_i hnot heq
    rw [heq]
    exact ⟨rfl, fun _ hblocked => hnot hblocked⟩

/-- What becomes of a frame on the reliable path is what becomes of its envelope. -/
theorem receive_outcome {frame : Frame} (path : ControlPath.ofText? frame.path = some .reliable)
    (m : Member) :
    (m.receive frame).2 = (m.onReliable frame).2 ∧
      ((m.receive frame).1 ≠ .blocked → (m.onReliable frame).1 ≠ .blocked) := by
  unfold receive
  rw [path]
  dsimp only
  split
  · rename_i heq
    rw [heq]
    exact ⟨rfl, fun h => absurd rfl h⟩
  · rename_i hnot heq
    rw [heq]
    exact ⟨rfl, fun _ hblocked => hnot hblocked⟩

/-- An ask of a member that has left is answered, but the answer is not sent. -/
theorem onAsk_encode_of_not_live {ask : Ask} (h : m.peers.isLive ask.sender = false) :
    m.onAsk (Record.encode ask) = (.done, (m.answer ask).2) := by
  have hpeers : (m.answer ask).2.peers.isLive ask.sender = false := h
  rw [onAsk_of_decode (Record.decode?_encode ask), unicast_of_not_live hpeers]

theorem alike_onAsk (m : Member) (ask : Ask) :
    Alike (m.answer ask).2 (m.onAsk (Record.encode ask)).2 := by
  have h := alike_unicast (m.answer ask).2 ask.sender .proposal (Record.encode (m.answer ask).1)
  rw [onAsk_of_decode (Record.decode?_encode ask)]
  split
  · rename_i heq
    rw [heq] at h
    exact h
  · rename_i heq
    rw [heq] at h
    exact h

theorem onAgreement_encode (m : Member) (a : Agreement) :
    m.onAgreement (Record.encode a) = m.adopt a := by
  unfold onAgreement adopt
  rw [Record.decode?_encode]

theorem onProposal_encode (m : Member) (v : Proposal) :
    m.onProposal (Record.encode v) = m.collect v := by
  unfold onProposal collect
  rw [Record.decode?_encode]

/-- A running member opens a collection of votes, and multicasts its ask. -/
theorem submit_eq (hrun : m.stopped = false) (id floodId : MessageId) (message : Message) :
    m.submit id floodId message = (m.openCollector id).multicast .reliable
      (Record.encode (m.askEnvelope id floodId message)) := by
  have hnot := multicast_ne_failed (m := m.openCollector id) hrun .reliable
    (Record.encode (m.askEnvelope id floodId message))
  unfold submit
  dsimp only
  split
  · rename_i e m' heq
    exact absurd (congrArg Prod.fst heq) (hnot e)
  · rfl

theorem alike_submit (hrun : m.stopped = false) (id floodId : MessageId) (message : Message) :
    Alike (m.openCollector id) (m.submit id floodId message).2 := by
  rw [submit_eq hrun]
  exact alike_multicast _ _ _

theorem alike_announce (m : Member) (floodId : MessageId) (v : Votes) :
    Alike m (m.announce floodId v) := by
  unfold announce
  split
  · exact alike_refl m
  · exact alike_multicast _ _ _

/-- What happens vote by vote and leaves the member alike each time leaves it alike in all. -/
theorem alike_foldl {f : Member × IdSource → Votes → Member × IdSource}
    (hf : ∀ x v, Alike x.1 (f x v).1) (decided : List Votes) (x : Member × IdSource) :
    Alike x.1 (decided.foldl f x).1 := by
  induction decided generalizing x with
  | nil => exact alike_refl x.1
  | cons v rest ih =>
    rw [List.foldl_cons]
    exact (hf x v).trans (ih (f x v))

/-- What a running member does of its own accord: it watches its group, every collection takes into
    account what came in, and agreements go out. -/
theorem alike_settle (hrun : m.stopped = false) (ids : IdSource) :
    Alike m.watchGroup.advanceCollectors.2 (m.settle ids).1 := by
  unfold settle
  rw [hrun]
  exact alike_foldl (fun x v => alike_announce x.1 x.2.fresh.1 v) _
    (m.watchGroup.advanceCollectors.2, ids)

/-! ## Alike members do alike -/

theorem Alike.release (h : Alike m m') : Alike m.release m'.release := by
  have hlive : m'.peers.isLive = m.peers.isLive := funext h.isLive
  unfold Member.release
  rw [h.sequencer, hlive]
  exact ⟨h.self, h.stopped, rfl, h.collectors, congrArg (· ++ _) h.released, h.seenChanges,
    h.changes, h.isLive⟩

theorem Alike.setSequencer (h : Alike m m') (q : Sequencer) :
    Alike { m with sequencer := q } { m' with sequencer := q } :=
  ⟨h.self, h.stopped, rfl, h.collectors, h.released, h.seenChanges, h.changes, h.isLive⟩

theorem Alike.setCollectors (h : Alike m m') (cs : List Collector) :
    Alike { m with collectors := cs } { m' with collectors := cs } :=
  ⟨h.self, h.stopped, h.sequencer, rfl, h.released, h.seenChanges, h.changes, h.isLive⟩

theorem Alike.answer (h : Alike m m') (ask : Ask) : Alike (m.answer ask).2 (m'.answer ask).2 := by
  unfold Member.answer
  rw [h.sequencer]
  exact (h.setSequencer _).release

theorem Alike.adopt (h : Alike m m') (a : Agreement) : Alike (m.adopt a) (m'.adopt a) := by
  unfold Member.adopt
  rw [h.sequencer]
  exact (h.setSequencer _).release

theorem Alike.collect (h : Alike m m') (v : Proposal) : Alike (m.collect v) (m'.collect v) := by
  unfold Member.collect
  rw [h.collectors]
  exact h.setCollectors _

theorem Alike.openCollector (h : Alike m m') (id : MessageId) :
    Alike (m.openCollector id) (m'.openCollector id) := by
  unfold Member.openCollector
  rw [h.collectors, h.changes]
  exact h.setCollectors _

theorem Alike.watchGroup (h : Alike m m') : Alike m.watchGroup m'.watchGroup := by
  unfold Member.watchGroup
  rw [h.seenChanges, h.changes]
  split
  · exact h
  · apply Alike.release
    exact ⟨h.self, h.stopped, h.sequencer, h.collectors, h.released, rfl, h.changes, h.isLive⟩

theorem Alike.advanceCollectors (h : Alike m m') :
    Alike m.advanceCollectors.2 m'.advanceCollectors.2 := by
  unfold Member.advanceCollectors
  rw [h.collectors, h.liveIds, h.changes]
  exact h.setCollectors _

theorem Alike.eject (h : Alike m m') (q : NodeId) : Alike (m.eject q).2 (m'.eject q).2 := by
  refine ⟨h.self, h.stopped, h.sequencer, h.collectors, h.released, h.seenChanges, ?_, fun r => ?_⟩
  · show (m'.peers.remove q).2.changes = (m.peers.remove q).2.changes
    rw [PeerTable.changes_remove, PeerTable.changes_remove, h.isLive, h.changes]
  · show (m'.peers.remove q).2.isLive r = (m.peers.remove q).2.isLive r
    rw [PeerTable.isLive_remove, PeerTable.isLive_remove, h.isLive]

end Member

namespace Protocol

open Member (Alike)

variable {g : Roster} {s : State} {p : NodeId} {m : Member}

/-! ## Handlers and steps -/

/-- A member that is handed an ask takes a step. -/
theorem step_onAsk (h : Alike (s.members p) m) {ask : Ask} (running : s.Running p)
    (underWay : (p, ask) ∈ s.asks) :
    Step g s (s.takeAsk p ask) ∧
      Alike ((s.takeAsk p ask).members p) (m.onAsk (Record.encode ask)).2 := by
  refine ⟨.takeAsk running underWay, ?_⟩
  show Alike ((s.setMember p ((s.members p).answer ask).2).members p) _
  rw [State.members_setMember_self]
  exact (h.answer ask).trans (m.alike_onAsk ask)

/-- A member that is handed an agreement takes a step. -/
theorem step_onAgreement (h : Alike (s.members p) m) {a : Agreement} (running : s.Running p)
    (underWay : (p, a) ∈ s.agreements) :
    Step g s (s.takeAgreement p a) ∧
      Alike ((s.takeAgreement p a).members p) (m.onAgreement (Record.encode a)) := by
  refine ⟨.takeAgreement running underWay, ?_⟩
  show Alike ((s.setMember p ((s.members p).adopt a)).members p) _
  rw [State.members_setMember_self, Member.onAgreement_encode]
  exact h.adopt a

/-- A member that is handed a proposal takes a step. -/
theorem step_onProposal (h : Alike (s.members p) m) {v : Proposal} (running : s.Running p)
    (underWay : (p, v) ∈ s.proposals) :
    Step g s (s.takeProposal p v) ∧
      Alike ((s.takeProposal p v).members p) (m.onProposal (Record.encode v)) := by
  refine ⟨.takeProposal running underWay, ?_⟩
  show Alike ((s.setMember p ((s.members p).collect v)).members p) _
  rw [State.members_setMember_self, Member.onProposal_encode]
  exact h.collect v

/-- A member that sends a message takes a step, also if the ask has to wait for room. -/
theorem step_submit (h : Alike (s.members p) m) {id floodId : MessageId} {message : Message}
    (member : p ∈ g.ids) (running : s.Running p) (fresh : ∀ a ∈ s.asked, a.id ≠ id) :
    Step g s (s.submit g ⟨p, id, Record.encode message⟩) ∧
      Alike ((s.submit g ⟨p, id, Record.encode message⟩).members p)
        (m.submit id floodId message).2 := by
  refine ⟨.submit member running fresh, ?_⟩
  show Alike ((s.setMember p ((s.members p).openCollector id)).members p) _
  rw [State.members_setMember_self]
  have hrunning := h.stopped.trans running
  exact (h.openCollector id).trans (Member.alike_submit hrunning id floodId message)

/-- What is left of a collection after a round: it goes on behind others, or is over. -/
def keep (kept : List Collector) (r : Bool × Collector) : List Collector :=
  if r.1 then kept else kept ++ [r.2]

/-- A collection goes on, or it is over and its agreement is announced. -/
theorem step_advance {c : Collector} {kept rest : List Collector} {r : Bool × Collector}
    (running : s.Running p) (hcollectors : (s.members p).collectors = kept ++ c :: rest)
    (hr : c.advance (s.members p).peers.liveIds (s.members p).peers.changes = r) :
    ∃ t, Step g s t ∧
      t.members p = { s.members p with collectors := keep kept r ++ rest } ∧
      (∀ q, q ≠ p → t.members q = s.members q) ∧
      t.announced = s.announced ++ if r.1 then r.2.votes.agreement.toList else [] := by
  obtain ⟨isOver, c'⟩ := r
  cases isOver with
  | false =>
    refine ⟨s.setCollectors p (kept ++ c' :: rest), .goOn running hcollectors hr, ?_,
      fun q hq => s.members_setMember_of_ne _ hq, (List.append_nil _).symm⟩
    show (s.setMember p _).members p = { s.members p with collectors := kept ++ [c'] ++ rest }
    rw [State.members_setMember_self, List.append_assoc]
    rfl
  | true =>
    -- A collection that is over has votes, and votes amount to an agreement.
    have hcomplete := Collector.advance_of_over (congrArg Prod.fst hr)
    rw [hr] at hcomplete
    have hsize : 0 < c'.votes.size := of_decide_eq_true (Bool.and_eq_true_iff.1 hcomplete).1
    obtain ⟨a, ha⟩ := Option.ne_none_iff_exists'.1 (Votes.agreement_ne_none hsize)
    refine ⟨s.announce g p (kept ++ rest) a, .announce running hcollectors hr ha, ?_,
      fun q hq => s.members_setMember_of_ne _ hq, ?_⟩
    · exact s.members_setMember_self p _
    · show s.announced ++ [a] = s.announced ++ c'.votes.agreement.toList
      rw [ha]
      rfl

/-- A round over all collections of a member, the oldest first: each of them goes on or is over, and
    the agreements of those that are over are announced. -/
theorem steps_advance {live : List NodeId} {changes : Nat} {kept rest : List Collector}
    (running : s.Running p) (hcollectors : (s.members p).collectors = kept ++ rest)
    (hlive : (s.members p).peers.liveIds = live)
    (hchanges : (s.members p).peers.changes = changes) :
    ∃ t, Relation.ReflTransGen (Step g) s t ∧
      t.members p = { s.members p with
        collectors := kept ++ ((rest.map (·.advance live changes)).filter (!·.1)).map (·.2) } ∧
      (∀ q, q ≠ p → t.members q = s.members q) ∧
      t.announced = s.announced ++
        (((rest.map (·.advance live changes)).filter (·.1)).map (·.2.votes)).filterMap
          Votes.agreement := by
  induction rest generalizing s kept with
  | nil =>
    refine ⟨s, .refl, ?_, fun _ _ => rfl, (List.append_nil _).symm⟩
    show s.members p = { s.members p with collectors := kept ++ [] }
    rw [← hcollectors]
  | cons c tl ih =>
    obtain ⟨t, hstep, hp, hothers, hannounced⟩ := step_advance (g := g) running hcollectors
      (r := c.advance live changes) (by rw [hlive, hchanges])
    have hrunning : t.Running p := by
      rw [State.Running, hp]
      exact running
    have htl : (t.members p).collectors = keep kept (c.advance live changes) ++ tl := by
      rw [hp]
    obtain ⟨u, hsteps, hu, huothers, huannounced⟩ :=
      ih hrunning htl (by rw [hp]; exact hlive) (by rw [hp]; exact hchanges)
    refine ⟨u, .head hstep hsteps, ?_, fun q hq => (huothers q hq).trans (hothers q hq), ?_⟩
    · rw [hu, hp]
      unfold keep
      cases hover : (c.advance live changes).1 with
      | false =>
        rw [List.map_cons, List.filter_cons_of_pos (by rw [hover]; rfl), List.map_cons]
        show ({ s.members p with collectors := kept ++ [_] ++ _ } : Member) = _
        rw [List.append_assoc]
        rfl
      | true =>
        rw [List.map_cons, List.filter_cons_of_neg (by rw [hover]; exact Bool.false_ne_true)]
        rfl
    · rw [huannounced, hannounced, List.append_assoc]
      cases hover : (c.advance live changes).1 with
      | false =>
        rw [List.map_cons, List.filter_cons_of_neg (by rw [hover]; exact Bool.false_ne_true)]
        rfl
      | true =>
        rw [List.map_cons, List.filter_cons_of_pos hover, List.map_cons, List.filterMap_cons]
        cases (c.advance live changes).2.votes.agreement <;> rfl

/-- What a running member does of its own accord are steps, and the agreements that it announces
    are those of the collections that are over. -/
theorem steps_settle (h : Alike (s.members p) m) (running : s.Running p) (ids : IdSource) :
    ∃ t, Relation.ReflTransGen (Step g) s t ∧ Alike (t.members p) (m.settle ids).1 ∧
      (∀ q, q ≠ p → t.members q = s.members q) ∧
      t.announced = s.announced ++
        (s.members p).watchGroup.advanceCollectors.1.filterMap Votes.agreement := by
  have hwatched : (s.setMember p (s.members p).watchGroup).members p = (s.members p).watchGroup :=
    s.members_setMember_self p _
  have hrunning : (s.setMember p (s.members p).watchGroup).Running p := by
    rw [State.Running, hwatched]
    exact (watchGroup_frame (s.members p)).2.1.trans running
  obtain ⟨t, hsteps, hp, hothers, hannounced⟩ :=
    steps_advance (g := g) hrunning (List.nil_append _).symm rfl rfl
  rw [hwatched] at hp hannounced
  refine ⟨t, .head (.watch running) hsteps, ?_, fun q hq => ?_, hannounced⟩
  · rw [hp]
    exact h.watchGroup.advanceCollectors.trans (Member.alike_settle (h.stopped.trans running) ids)
  · exact (hothers q hq).trans (s.members_setMember_of_ne _ hq)

/-- A member that takes a crashed one out of its group takes a step. -/
theorem step_eject (h : Alike (s.members p) m) {q : NodeId} (running : s.Running p)
    (crashed : ¬s.Running q) :
    Step g s (s.setMember p ((s.members p).eject q).2) ∧
      Alike ((s.setMember p ((s.members p).eject q).2).members p) (m.eject q).2 := by
  refine ⟨.eject running crashed, ?_⟩
  rw [State.members_setMember_self]
  exact h.eject q

end Protocol

end AgreedOrder
