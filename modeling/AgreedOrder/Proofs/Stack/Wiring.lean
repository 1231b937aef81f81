/-
  AgreedOrder.Proofs.Stack.Wiring

  The lines between the members of a group in which nobody crashes. Each line
  holds an envelope that was issued or a proposal of the member that sends it;
  and an envelope that was issued has been heard by each member, or is on its
  way there from its origin.

    * `Standing` — every member runs, and counts exactly the group as live.
    * `Wired` — what is on its way, and whom it has come to.
    * `Calm` — steps at which no envelope is multicast or heard.
    * `Reachable.wired` — all this holds in every run.
-/

import AgreedOrder.Proofs.Flooding.Covering
import AgreedOrder.Proofs.Protocol.Membership
import AgreedOrder.Proofs.Sequencer.Release
import AgreedOrder.Proofs.Stack.Lines

namespace AgreedOrder

open Json

/-! ## One member -/

/-- A member that sends as before: to the same members, and through the same queues. -/
structure Member.SameWires (m m' : Member) : Prop where
  self : m'.self = m.self
  stopped : m'.stopped = m.stopped
  received : m'.received = m.received
  peers : m'.peers = m.peers
  voter : m'.sequencer.self = m.sequencer.self

namespace Member

variable {m m' m'' : Member}

theorem SameWires.trans (h : SameWires m m') (h' : SameWires m' m'') : SameWires m m'' :=
  ⟨h'.self.trans h.self, h'.stopped.trans h.stopped, h'.received.trans h.received,
    h'.peers.trans h.peers, h'.voter.trans h.voter⟩

theorem sameWires_release (m : Member) : SameWires m m.release :=
  ⟨rfl, rfl, rfl, rfl, Sequencer.self_release _ _⟩

/-- Another state of the sequencer changes nothing about whom a member sends to. -/
theorem sameWires_setSequencer {q : Sequencer} (h : q.self = m.sequencer.self) :
    SameWires m (release { m with sequencer := q }) :=
  have hset : SameWires m { m with sequencer := q } := ⟨rfl, rfl, rfl, rfl, h⟩
  hset.trans (sameWires_release _)

theorem sameWires_answer (m : Member) (ask : Ask) : SameWires m (m.answer ask).2 :=
  sameWires_setSequencer (Sequencer.self_onAsk _ ask).2

theorem sameWires_adopt (m : Member) (a : Agreement) : SameWires m (m.adopt a) :=
  sameWires_setSequencer (Sequencer.self_onAgreement _ a)

theorem sameWires_onAgreement (m : Member) (body : Bytes) : SameWires m (m.onAgreement body) := by
  unfold onAgreement
  split
  · exact ⟨rfl, rfl, rfl, rfl, rfl⟩
  · exact m.sameWires_adopt _

theorem sameWires_watchGroup (m : Member) : SameWires m m.watchGroup := by
  unfold watchGroup
  split
  · exact ⟨rfl, rfl, rfl, rfl, rfl⟩
  · have hset : SameWires m { m with seenChanges := m.peers.changes } :=
      ⟨rfl, rfl, rfl, rfl, rfl⟩
    exact hset.trans (sameWires_release _)

end Member

namespace Stack

open Protocol (Roster)
open Flooding (Sending Hop Onward Opening FirstArrival Routing lineOf hear lineOf_injective
  around_init around_remove around_setMember onward_setMember onward_enqueue onward_finish
  onward_write onward_remove opening_multicast firstArrival_route firstArrival_passOn
  perm_setMember running_setMember steady_of_eq steady_update steady_startSending steady_enqueue
  steady_write steady_hear routing_init takeIn_encode update_congr)

variable {g : Roster} {n n' : Flooding.State} {s s' : State} {p q : NodeId}

/-! ## The group of each member -/

/-- Every member runs, counts exactly the group as live, votes under its own id, and has a reader
    for each queue, which has room when it is empty. -/
structure Standing (g : Roster) (n : Flooding.State) : Prop where
  self : ∀ p, (n.members p).self = p
  voter : ∀ p, (n.members p).sequencer.self = p
  running : ∀ p, n.Running p
  live : ∀ p q, (n.members p).peers.isLive q = true ↔ q ∈ g.ids
  reading : ∀ p, ∀ q ∈ g.ids, (n.members p).peers.hasReader q = true
  roomy : ∀ p, (n.members p).peers.Roomy

theorem standing_init (g : Roster) : Standing g (Flooding.State.init g.layout) where
  self _ := rfl
  voter _ := rfl
  running _ := rfl
  live p q := Member.isLive_init p g.nodes g.capacity q
  reading p q hq := (Member.queues_init p g.nodes g.capacity q).2.trans (decide_eq_true hq)
  roomy p := Member.roomy_init p g.nodes g.capacity

/-- A multicast goes to the whole group. -/
theorem Standing.mem_targets (h : Standing g n) {targets : List NodeId}
    (order : targets.Perm (n.members p).peers.liveIds) {b : NodeId} (hb : b ∈ g.ids) :
    b ∈ targets :=
  order.mem_iff.2 ((PeerTable.mem_liveIds _ b).2 ((h.live p b).2 hb))

theorem Standing.congr (h : Standing g n) (hmembers : n'.members = n.members) :
    Standing g n' := by
  refine ⟨?_, ?_, fun p => ?_, ?_, ?_, ?_⟩
  · exact hmembers ▸ h.self
  · exact hmembers ▸ h.voter
  · rw [Flooding.State.Running, hmembers]
    exact h.running p
  · exact hmembers ▸ h.live
  · exact hmembers ▸ h.reading
  · exact hmembers ▸ h.roomy

theorem Standing.steady (h : Standing g n)
    (hsteady : ∀ p, (n.members p).Steady n.Running (n'.members p))
    (hrunning : ∀ p, n'.Running p)
    (hvoter : ∀ p, (n'.members p).sequencer.self = (n.members p).sequencer.self) :
    Standing g n' where
  self p := (hsteady p).self.trans (h.self p)
  voter p := (hvoter p).trans (h.voter p)
  running := hrunning
  live p q := by
    constructor
    · intro hq
      exact (h.live p q).1 ((hsteady p).live q hq)
    · intro hq
      exact (hsteady p).kept q (h.running q) ((h.live p q).2 hq)
  reading p q hq := (hsteady p).kept_reading q (h.running q) (h.reading p q hq)
  roomy p := (hsteady p).roomy (h.roomy p)

theorem Standing.setMember (h : Standing g n) {m : Member} (hm : (n.members p).SameWires m) :
    Standing g (n.setMember p m) := by
  refine h.steady (steady_update ?_) (fun q => ?_) (update_congr (·.sequencer.self) hm.voter)
  · refine steady_of_eq hm.self hm.stopped (fun q => ?_) (fun q => ?_) fun hr => ?_
    · rw [hm.peers]
    · rw [hm.peers]
    · rw [hm.peers]
      exact hr
  · exact (running_setMember hm.stopped q).2 (h.running q)

theorem Standing.startSending (h : Standing g n) (body : Bytes) (envelope : Option Flood)
    (targets : List NodeId) : Standing g (n.startSending p body envelope targets) := by
  refine h.steady (steady_startSending envelope targets) (fun q => ?_)
    (update_congr (·.sequencer.self) (by rfl))
  exact (running_setMember (by rfl) q).2 (h.running q)

theorem Standing.enqueue (h : Standing g n) (x : Sending) (l : List Sending) :
    Standing g (n.enqueue x q l) := by
  refine h.steady (steady_enqueue x q l) (fun r => ?_) (update_congr (·.sequencer.self) (by rfl))
  exact (running_setMember (by rfl) r).2 (h.running r)

theorem Standing.write (h : Standing g n) {line : String} {peers : PeerTable}
    (oldest : (n.members p).peers.takeLine q = (some (.line line), peers)) :
    Standing g (n.write p q line peers) := by
  refine h.steady (steady_write oldest) (fun r => ?_) (update_congr (·.sequencer.self) (by rfl))
  exact (running_setMember (by rfl) r).2 (h.running r)

theorem Standing.hear (h : Standing g n) (q : NodeId) (f : Flood) :
    Standing g (n.setMember q (hear (n.members q) f)) := by
  refine h.steady steady_hear (fun r => ?_) (update_congr (·.sequencer.self) (by rfl))
  exact (running_setMember (by rfl) r).2 (h.running r)

theorem Standing.startUnicast (h : Standing g n) (path : ControlPath) (body : Bytes) :
    Standing g (startUnicast n p q path body) := by
  cases hlive : (n.members p).peers.isLive q with
  | false =>
    rw [startUnicast_of_not_live hlive]
    exact h
  | true =>
    obtain ⟨t, ⟨houtboxes, -, hsame⟩, heq⟩ := startUnicast_of_live hlive path body
    rw [heq]
    have hreader (r : NodeId) : t.hasReader r = (n.members p).peers.hasReader r := by
      rw [PeerTable.hasReader, PeerTable.hasReader, houtboxes]
    have hroomy (hr : (n.members p).peers.Roomy) : t.Roomy := by
      rw [PeerTable.Roomy, houtboxes]
      exact hr
    refine h.steady (steady_update (steady_of_eq (by rfl) (by rfl) hsame hreader hroomy))
      (fun r => ?_) (update_congr (·.sequencer.self) (by rfl))
    exact (running_setMember (by rfl) r).2 (h.running r)

/-! ## What is on its way -/

/-- A line holds a proposal of the member that sends it. -/
def Proposes (a : NodeId) (line : String) : Prop :=
  ∃ v : Proposal, v.voter = a ∧ line = proposalLine v

/-- What lines hold, and whom envelopes have come to. -/
structure Wired (g : Roster) (n : Flooding.State) : Prop where
  standing : Standing g n
  ends : ∀ a b line, n.Around a b line → a ∈ g.ids ∧ b ∈ g.ids
  carried : ∀ a b line, n.Around a b line →
    (∃ x ∈ n.issued, line = lineOf a x.2) ∨ Proposes a line
  issuer : ∀ x ∈ n.issued, x.1 ∈ g.ids
  nodup : (n.issued.map (·.2.id)).Nodup
  routing : Routing n
  handler : ∀ y ∈ n.handled, y.1 ∈ g.ids
  covered : ∀ x ∈ n.issued, ∀ p ∈ g.ids,
    x.2.id ∈ (n.members p).received ∨ n.Around x.1 p (lineOf x.1 x.2)

theorem wired_init (g : Roster) : Wired g (Flooding.State.init g.layout) where
  standing := standing_init g
  ends _ _ _ h := absurd h around_init
  carried _ _ _ h := absurd h around_init
  issuer := nofun
  nodup := List.nodup_nil
  routing := routing_init g.layout
  handler := nofun
  covered := nofun

/-- A step at which no envelope is multicast or heard. Lines of proposals may come and go; the line
    of an envelope goes only if the envelope was heard. -/
structure Calm (g : Roster) (n n' : Flooding.State) : Prop where
  standing : Standing g n'
  received : ∀ p, (n'.members p).received = (n.members p).received
  issued : n'.issued = n.issued
  handled : n'.handled.Perm n.handled
  around_of : ∀ a b line, n'.Around a b line →
    n.Around a b line ∨ a ∈ g.ids ∧ b ∈ g.ids ∧ Proposes a line
  around : ∀ a b f, n.Around a b (lineOf a f) →
    n'.Around a b (lineOf a f) ∨ f.id ∈ (n.members b).received

theorem calm_refl (h : Standing g n) : Calm g n n :=
  ⟨h, fun _ => rfl, rfl, .refl _, fun _ _ _ => Or.inl, fun _ _ _ => Or.inl⟩

theorem Calm.trans {n'' : Flooding.State} (h : Calm g n n') (h' : Calm g n' n'') :
    Calm g n n'' where
  standing := h'.standing
  received p := (h'.received p).trans (h.received p)
  issued := h'.issued.trans h.issued
  handled := h'.handled.trans h.handled
  around_of a b line ha := by
    rcases h'.around_of a b line ha with ha | ha
    · exact h.around_of a b line ha
    · exact Or.inr ha
  around a b f ha := by
    rcases h.around a b f ha with ha | hseen
    · rw [← h.received]
      exact h'.around a b f ha
    · exact Or.inr hseen

theorem Wired.calm (hw : Wired g n) (h : Calm g n n') : Wired g n' where
  standing := h.standing
  ends a b line ha := by
    rcases h.around_of a b line ha with ha | ⟨ha, hb, -⟩
    · exact hw.ends a b line ha
    · exact ⟨ha, hb⟩
  carried a b line ha := by
    rw [h.issued]
    rcases h.around_of a b line ha with ha | ⟨-, -, hv⟩
    · exact hw.carried a b line ha
    · exact Or.inr hv
  issuer := h.issued ▸ hw.issuer
  nodup := h.issued ▸ hw.nodup
  routing := hw.routing.congr h.received h.issued h.handled
  handler y hy := hw.handler y (h.handled.mem_iff.1 hy)
  covered x hx p hp := by
    rw [h.issued] at hx
    rw [h.received]
    rcases hw.covered x hx p hp with hseen | haround
    · exact Or.inl hseen
    · exact (h.around x.1 p x.2 haround).symm

/-- A step that says nothing new is calm: no line is lost while everybody runs and reads. -/
theorem Wired.calm_of_onward (hw : Wired g n) (h : Onward n n') (hs : Standing g n') :
    Calm g n n' where
  standing := hs
  received := h.received
  issued := h.issued
  handled := h.handled
  around_of a b line ha := Or.inl (h.around_of a b line ha)
  around a b f ha := by
    obtain ⟨-, hb⟩ := hw.ends a b _ ha
    rcases h.around a b _ ha with hkept | hstop | hstop | hunread | ⟨f', hline, hseen⟩
    · exact Or.inl hkept
    · exact absurd (hw.standing.running a) hstop
    · exact absurd (hw.standing.running b) hstop
    · rw [hw.standing.reading a b hb] at hunread
      cases hunread
    · rw [lineOf_injective a hline]
      exact Or.inr hseen

theorem Wired.opening {f : Flood} (hw : Wired g n) (h : Opening g.layout n n' p f)
    (hs : Standing g n') : Wired g n' := by
  have hissued {x : NodeId × Flood} : x ∈ n'.issued ↔ x ∈ n.issued ∨ x = (p, f) := by
    rw [h.issued]
    exact mem_append_singleton
  refine ⟨hs, fun a b line ha => ?_, fun a b line ha => ?_, fun x hx => ?_, ?_,
    hw.routing.opening h, fun y hy => ?_, fun x hx q hq => ?_⟩
  · rcases (h.around a b line).1 ha with ha | ⟨rfl, -, hlive⟩
    · exact hw.ends a b line ha
    · exact ⟨h.member, (hw.standing.live a b).1 hlive⟩
  · rcases (h.around a b line).1 ha with ha | ⟨rfl, rfl, -⟩
    · refine (hw.carried a b line ha).imp_left ?_
      rintro ⟨x, hx, hline⟩
      exact ⟨x, hissued.2 (Or.inl hx), hline⟩
    · exact Or.inl ⟨(a, f), hissued.2 (Or.inr rfl), rfl⟩
  · rcases hissued.1 hx with hx | rfl
    · exact hw.issuer x hx
    · exact h.member
  · rw [h.issued]
    exact nodup_map_append_singleton hw.nodup h.fresh
  · rw [h.handled] at hy
    exact hw.handler y hy
  -- The new envelope is on its way to every member.
  · rw [h.received]
    rcases hissued.1 hx with hx | rfl
    · exact (hw.covered x hx q hq).imp_right fun ha => (h.around _ _ _).2 (Or.inl ha)
    · exact Or.inr ((h.around _ _ _).2 (Or.inr ⟨rfl, rfl, (hw.standing.live p q).2 hq⟩))

/-- The envelope that a line brings was issued. -/
theorem Wired.issued_of_line {f : Flood} (hw : Wired g n) (h : n.Around p q (lineOf p f)) :
    ∃ o, (o, f) ∈ n.issued := by
  rcases hw.carried p q _ h with ⟨x, hx, hline⟩ | ⟨v, -, hline⟩
  · rw [lineOf_injective p hline]
    exact ⟨x.1, hx⟩
  · exact absurd hline (lineOf_ne_proposalLine p f v)

theorem Wired.firstArrival {f : Flood} (hw : Wired g n) (h : FirstArrival n n' p q f)
    (hs : Standing g n') : Wired g n' := by
  obtain ⟨o, ho⟩ := hw.issued_of_line h.line
  obtain ⟨-, hq⟩ := hw.ends p q _ h.line
  refine ⟨hs, fun a b line ha => ?_, fun a b line ha => ?_, h.issued ▸ hw.issuer,
    h.issued ▸ hw.nodup, hw.routing.firstArrival ⟨o, ho⟩ h, fun y hy => ?_, fun x hx r hr => ?_⟩
  · rcases h.around_of a b line ha with ha | ⟨-, rfl, -, hlive⟩
    · exact hw.ends a b line ha
    · exact ⟨hq, (hw.standing.live a b).1 hlive⟩
  · rw [h.issued]
    rcases h.around_of a b line ha with ha | ⟨-, rfl, rfl, -⟩
    · exact hw.carried a b line ha
    · exact Or.inl ⟨(o, f), ho, rfl⟩
  · rcases List.mem_cons.1 (h.handled.mem_iff.1 hy) with rfl | hy
    · exact hq
    · exact hw.handler y hy
  -- Only the line that arrived is gone, and what it held is heard.
  · rw [h.issued] at hx
    rw [h.received]
    rcases hw.covered x hx r hr with hseen | haround
    · split
      · exact Or.inl (List.mem_cons_of_mem _ hseen)
      · exact Or.inl hseen
    · rcases h.around _ _ _ haround with haround | ⟨rfl, rfl, hline⟩
      · exact Or.inr haround
      · rw [lineOf_injective _ hline, if_pos rfl]
        exact Or.inl (List.mem_cons_self ..)

/-! ## Calm steps -/

theorem Wired.calm_setMember (hw : Wired g n) {m : Member} (hm : (n.members p).SameWires m) :
    Calm g n (n.setMember p m) := by
  refine hw.calm_of_onward (onward_setMember hm.received fun q => ?_) (hw.standing.setMember hm)
  rw [hm.peers]

/-- A member that sends a proposal adds a line to those on their way, or none. -/
theorem calm_startUnicast (hs : Standing g n) (hp : p ∈ g.ids) {v : Proposal}
    (hv : v.voter = p) : Calm g n (startUnicast n p q .proposal (Record.encode v)) := by
  have hstanding := hs.startUnicast (p := p) (q := q) .proposal (Record.encode v)
  cases hlive : (n.members p).peers.isLive q with
  | false =>
    rw [startUnicast_of_not_live hlive]
    exact calm_refl hs
  | true =>
    have hline : (n.members p).frameLine .proposal (Record.encode v) = proposalLine v :=
      frameLine_proposal ((hs.self p).trans hv.symm)
    have haround (a b : NodeId) (line : String) :
        (startUnicast n p q .proposal (Record.encode v)).Around a b line ↔ n.Around a b line ∨
          a = p ∧ b = q ∧ line = (n.members p).frameLine .proposal (Record.encode v) :=
      around_startUnicast hlive .proposal (Record.encode v)
    have hreceived (r : NodeId) :
        ((startUnicast n p q .proposal (Record.encode v)).members r).received
          = (n.members r).received := by
      obtain ⟨t, -, heq⟩ := startUnicast_of_live hlive .proposal (Record.encode v)
      rw [heq]
      exact update_congr (·.received) (by rfl) r
    have hsame : (startUnicast n p q .proposal (Record.encode v)).issued = n.issued ∧
        (startUnicast n p q .proposal (Record.encode v)).handled = n.handled := by
      obtain ⟨t, -, heq⟩ := startUnicast_of_live hlive .proposal (Record.encode v)
      rw [heq]
      refine ⟨rfl, ?_⟩
      simp only [Flooding.State.handled, Flooding.State.pending, Flooding.State.setMember,
        List.flatMap_append, List.flatMap_cons, List.flatMap_nil, Option.toList_none, List.map_nil,
        List.append_nil]
    refine ⟨hstanding, hreceived, hsame.1, .of_eq hsame.2, fun a b line ha => ?_,
      fun a b f ha => Or.inl ((haround a b _).2 (Or.inl ha))⟩
    rcases (haround a b line).1 ha with ha | ⟨rfl, rfl, rfl⟩
    · exact Or.inl ha
    · exact Or.inr ⟨hp, (hs.live a b).1 hlive, v, hv, hline⟩

/-- A member that answers an ask. -/
theorem Wired.calm_answer (hw : Wired g s.net) (hp : p ∈ g.ids) (ask : Ask) :
    Calm g s.net (s.answer p ask).net := by
  have hset := hw.calm_setMember (p := p) ((s.net.members p).sameWires_answer ask)
  refine hset.trans (calm_startUnicast hset.standing hp ?_)
  exact (Sequencer.self_onAsk _ ask).1.trans (hw.standing.voter p)

/-- A member that handles an envelope hears nothing by that. -/
theorem Wired.calm_handle (hw : Wired g s.net) (hp : p ∈ g.ids) (f : Flood) :
    Calm g s.net (s.handle p f).net := by
  unfold State.handle
  split
  · split
    · exact calm_refl hw.standing
    · exact hw.calm_answer hp _
  · exact hw.calm_setMember ((s.net.members p).sameWires_onAgreement f.body)
  · exact calm_refl hw.standing

/-- The line of a proposal may go. -/
theorem Wired.calm_remove (hw : Wired g n) {h : Hop} {before after : List Hop}
    (underWay : n.underWay = before ++ h :: after) {v : Proposal}
    (hline : h.line = proposalLine v) :
    Calm g n { n with underWay := before ++ after } where
  standing := hw.standing.congr rfl
  received _ := rfl
  issued := rfl
  handled := .refl _
  around_of _ _ _ ha := Or.inl ((around_remove underWay).2 (Or.inl ha))
  around a b f ha := by
    rcases (around_remove underWay).1 ha with ha | rfl
    · exact Or.inl ha
    · exact absurd hline (lineOf_ne_proposalLine a f v)

/-! ## Every step -/

theorem Wired.multicast (hw : Wired g n) (hp : p ∈ g.ids) {f : Flood} {targets : List NodeId}
    (fresh : ∀ x ∈ n.issued, x.2.id ≠ f.id)
    (order : targets.Perm (n.members p).peers.liveIds) : Wired g (n.multicast p f targets) := by
  have hopening : Opening g.layout n (n.multicast p f targets) p f :=
    opening_multicast (hw.standing.self p) hp (hw.standing.running p) fresh order
  exact hw.opening hopening ((hw.standing.startSending _ none targets).congr rfl)

/-- A multicast that is over has no line left. -/
theorem Wired.finished (hw : Wired g n) {x : Sending} {before after : List Sending}
    (sending : n.sendings = before ++ x :: after) (complete : x.targets = []) :
    Wired g (n.finish x (before ++ after)) :=
  hw.calm (hw.calm_of_onward (onward_finish sending (Or.inl complete)) (hw.standing.congr rfl))

/-- The envelope of a multicast is handled when the multicast is over. -/
theorem mem_pending {x : Sending} {before after : List Sending} {f : Flood}
    (sending : n.sendings = before ++ x :: after) (hx : x.envelope = some f) :
    (x.node, f) ∈ n.pending := by
  refine List.mem_flatMap.2 ⟨x, (mem_iff_of_split sending).2 (Or.inl rfl), ?_⟩
  rw [hx]
  exact List.mem_singleton_self _

theorem Wired.finish (hw : Wired g s.net) {x : Sending} {before after : List Sending}
    (sending : s.net.sendings = before ++ x :: after) (complete : x.targets = []) :
    Wired g (s.finish x (before ++ after)).net := by
  have hfinished := hw.finished sending complete
  cases hx : x.envelope with
  | none =>
    rw [finish_of_none hx]
    exact hfinished
  | some f =>
    rw [finish_of_some hx]
    have hp := hw.handler _ (List.mem_append_right _ (mem_pending sending hx))
    exact hfinished.calm (Wired.calm_handle (s := s.setNet _) hfinished hp f)

section Arrive

variable {before after : List Hop} {f : Flood}

/-- A member's own line brings it an envelope, which is routed at once. -/
theorem Wired.route (hw : Wired g n) (underWay : n.underWay = before ++ ⟨q, q, lineOf q f⟩ :: after)
    (hnew : f.id ∉ (n.members q).received) :
    Wired g ((Flooding.State.setMember { n with underWay := before ++ after } q
      (hear (n.members q) f)).route q f) := by
  have hgone : Standing g { n with underWay := before ++ after } := hw.standing.congr rfl
  exact hw.firstArrival (firstArrival_route underWay (hw.standing.running q) hnew)
    ((hgone.hear q f).congr rfl)

/-- Another member's line brings a member an envelope, which it multicasts in turn. -/
theorem Wired.passOn (hw : Wired g n) (hne : p ≠ q)
    (underWay : n.underWay = before ++ ⟨p, q, lineOf p f⟩ :: after)
    (hnew : f.id ∉ (n.members q).received) {targets : List NodeId}
    (order : targets.Perm (n.members q).peers.liveIds) :
    Wired g ((Flooding.State.setMember { n with underWay := before ++ after } q
      (hear (n.members q) f)).passOn q f (Record.encode f) targets) := by
  have hgone : Standing g { n with underWay := before ++ after } := hw.standing.congr rfl
  exact hw.firstArrival
    (firstArrival_passOn (hw.standing.self q) hne underWay (hw.standing.running q) hnew order)
    (((hgone.hear q f).startSending _ (some f) targets).congr rfl)

end Arrive

/-- What comes of the oldest line of a link. -/
theorem Wired.arrive (hw : Wired g s.net) {h : Hop} {before after : List Hop}
    {targets : List NodeId} (underWay : s.net.underWay = before ++ h :: after)
    (order : targets.Perm (s.net.members h.target).peers.liveIds) :
    Wired g ((s.setNet { s.net with underWay := before ++ after }).arrive h.target h.line
      targets).net := by
  obtain ⟨p, q, line⟩ := h
  have haround : s.net.Around p q line := (around_remove underWay).2 (Or.inr rfl)
  obtain ⟨-, hq⟩ := hw.ends p q line haround
  rcases hw.carried p q line haround with ⟨x, -, rfl⟩ | ⟨v, -, rfl⟩
  · by_cases hseen : x.2.id ∈ (s.net.members q).received
    · rw [arrive_of_seen (s := s.setNet { s.net with underWay := before ++ after }) hseen]
      exact hw.calm (hw.calm_of_onward
        (onward_remove underWay (Or.inr (Or.inr ⟨x.2, rfl, hseen⟩))) (hw.standing.congr rfl))
    · rw [arrive_of_new (s := s.setNet { s.net with underWay := before ++ after })
        (hw.standing.self q) hseen]
      split
      · rename_i hpq
        subst hpq
        have hrouted := hw.route underWay hseen
        exact hrouted.calm (Wired.calm_handle (s := s.setNet _) hrouted hq x.2)
      · rename_i hpq
        exact hw.passOn hpq underWay hseen order
  -- A proposal comes to the collections of votes.
  · rw [arrive_proposalLine]
    have hgone := hw.calm (hw.calm_remove underWay rfl)
    exact hgone.calm (hgone.calm_setMember ⟨rfl, rfl, rfl, rfl, rfl⟩)

theorem Move.wired (h : Move g s s') (hw : Wired g s.net) : Wired g s'.net := by
  cases h with
  | enqueue sending next room =>
    exact hw.calm (hw.calm_of_onward (onward_enqueue sending next room) (hw.standing.enqueue _ _))
  | finish sending complete => exact hw.finish sending complete
  | write oldest =>
    exact hw.calm (hw.calm_of_onward (onward_write oldest) (hw.standing.write oldest))
  | arrive underWay _ order => exact hw.arrive underWay order
  | goOn => exact hw.calm (hw.calm_setMember ⟨rfl, rfl, rfl, rfl, rfl⟩)
  | @announce p _ _ before after _ _ _ member _ _ _ fresh order =>
    have hset : Wired g (s.net.setMember p
        { s.net.members p with collectors := before ++ after }) :=
      hw.calm (hw.calm_setMember ⟨rfl, rfl, rfl, rfl, rfl⟩)
    exact hset.multicast member fresh (perm_setMember (by rfl) order)
  | watch => exact hw.calm (hw.calm_setMember (Member.sameWires_watchGroup _))

theorem Step.wired (h : Step g s s') (hw : Wired g s.net) : Wired g s'.net := by
  cases h with
  | @submit p id _ _ _ member _ freshFlood order =>
    have hset : Wired g (s.net.setMember p ((s.net.members p).openCollector id)) :=
      hw.calm (hw.calm_setMember ⟨rfl, rfl, rfl, rfl, rfl⟩)
    exact hset.multicast member freshFlood (perm_setMember (by rfl) order)
  | move next => exact next.wired hw
  | handOver => exact hw.calm (hw.calm_setMember ⟨rfl, rfl, rfl, rfl, rfl⟩)

theorem Reachable.wired (h : Reachable g s) : Wired g s.net := by
  induction h with
  | init => exact wired_init g
  | step _ next ih => exact next.wired ih

end Stack

end AgreedOrder
