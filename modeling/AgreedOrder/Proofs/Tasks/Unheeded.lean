/-
  AgreedOrder.Proofs.Tasks.Unheeded

  A frame that is no ask, no agreement and no proposal that is waited for
  leaves what orders messages alone, whatever is wrong with it and on which of
  the three levels. The member goes on as if the frame had not come, but for
  the id of an envelope that it has seen now and passes on. When copies of that
  come from other members, only one of the two has something to do about them.

    * `Flood.Orders`, `Member.Heeds` — the frames that concern the order.
    * `alike_receive_of_unheeded` — any other, handled in one go.
    * `PassingBy` — the dispatcher passes such an envelope on.
    * `Abreast`, `Abreast.step` — with the frame and without it.
    * `unheeded_frame_leaves_no_trace` — whatever happens after it.
-/

import AgreedOrder.Proofs.Tasks.Lockstep

namespace AgreedOrder

open Json

/-! ## Frames that concern the order -/

/-- An envelope that holds an ask or an agreement, on the path for it. -/
inductive Flood.Orders (f : Flood) : Prop
  | ask {ask : Ask} (path : ControlPath.ofText? f.path = some .ask)
      (body : Record.decode? f.body = some ask)
  | agreement {a : Agreement} (path : ControlPath.ofText? f.path = some .agreement)
      (body : Record.decode? f.body = some a)

theorem Flood.not_orders {f : Flood} (ask : ControlPath.ofText? f.path ≠ some .ask)
    (agreement : ControlPath.ofText? f.path ≠ some .agreement) : ¬f.Orders := by
  rintro (⟨hpath, -⟩ | ⟨hpath, -⟩)
  · exact ask hpath
  · exact agreement hpath

namespace Member

/-- A frame that a member takes note of for the order: a new envelope that holds an ask or an
    agreement, or a proposal for a message whose votes are being collected. -/
inductive Heeds (m : Member) (frame : Frame) : Prop
  | flood {f : Flood} (path : ControlPath.ofText? frame.path = some .reliable)
      (envelope : Record.decode? frame.body = some f) (new : f.id ∉ m.received)
      (orders : f.Orders)
  | proposal {v : Proposal} {c : Collector}
      (path : ControlPath.ofText? frame.path = some .proposal)
      (body : Record.decode? frame.body = some v) (collecting : c ∈ m.collectors)
      (id : c.votes.id = v.id)

variable {m m' : Member} {frame : Frame} {f : Flood}

/-! ## In one go -/

theorem onFlood_of_not_orders (h : ¬f.Orders) (m : Member) : m.onFlood f = (.done, m) := by
  unfold onFlood
  split
  · rename_i hpath
    unfold onAsk
    cases hbody : (Record.decode? f.body : Option Ask) with
    | none => rfl
    | some ask => exact absurd (.ask hpath hbody) h
  · rename_i hpath
    unfold onAgreement
    cases hbody : (Record.decode? f.body : Option Agreement) with
    | none => rfl
    | some a => exact absurd (.agreement hpath hbody) h
  · rfl

theorem onProposal_of_unheeded (h : ¬m.Heeds frame)
    (path : ControlPath.ofText? frame.path = some .proposal) : m.onProposal frame.body = m := by
  unfold onProposal
  cases hbody : (Record.decode? frame.body : Option Proposal) with
  | none => rfl
  | some v =>
    have hstray : m.collectors.map (fun c =>
        if c.votes.id = v.id then { c with inbox := c.inbox ++ [v] } else c) = m.collectors := by
      refine (List.map_congr_left fun c hc => ?_).trans (List.map_id _)
      exact if_neg fun hid => h (.proposal path hbody hc hid)
    dsimp only
    rw [hstray]

theorem not_orders_of_unheeded (h : ¬m.Heeds frame)
    (path : ControlPath.ofText? frame.path = some .reliable)
    (htake : m.takeIn frame = some (f, m')) : ¬f.Orders := by
  obtain ⟨henvelope, hnew, -⟩ := takeIn_eq_some htake
  exact fun horders => h (.flood path henvelope hnew horders)

theorem not_heeds_of_not_orders (path : ControlPath.ofText? frame.path = some .reliable)
    (envelope : Record.decode? frame.body = some f) (quiet : ¬f.Orders) (m : Member) :
    ¬m.Heeds frame := by
  rintro (⟨-, henvelope, -, horders⟩ | ⟨hpath, -, -, -⟩)
  · obtain rfl := Option.some.inj (envelope.symm.trans henvelope)
    exact quiet horders
  · cases path.symm.trans hpath

theorem alike_onReliable_of_unheeded (h : ¬m.Heeds frame)
    (path : ControlPath.ofText? frame.path = some .reliable) :
    Alike m (m.onReliable frame).2 := by
  rw [onReliable_eq]
  cases htake : m.takeIn frame with
  | none => exact alike_refl m
  | some x =>
    obtain ⟨f, m'⟩ := x
    have hnothing := onFlood_of_not_orders (not_orders_of_unheeded h path htake)
    have htaken := alike_takeIn htake
    dsimp only
    split
    · rw [hnothing]
      exact htaken
    · have hsent := htaken.trans (m'.alike_multicast .reliable frame.body)
      rcases hm : m'.multicast .reliable frame.body with ⟨_ | _ | e, m''⟩
      · rw [hm] at hsent
        dsimp only
        rw [hnothing]
        exact hsent
      · rw [hm] at hsent
        exact hsent
      · rw [hm] at hsent
        dsimp only
        rw [hnothing]
        exact hsent

/-- A frame that is not heeded leaves all that orders messages as it is, also if the member has to
    wait until it can pass an envelope on. -/
theorem alike_receive_of_unheeded (h : ¬m.Heeds frame) : Alike m (m.receive frame).2 := by
  rcases hpath : ControlPath.ofText? frame.path with _ | _ | _ | _ | _
  case some.reliable =>
    rw [(receive_outcome hpath m).1]
    exact alike_onReliable_of_unheeded h hpath
  case some.proposal =>
    unfold receive
    rw [hpath]
    dsimp only
    rw [onProposal_of_unheeded h hpath]
    exact alike_refl m
  all_goals
    unfold receive
    rw [hpath]
    exact alike_refl m

end Member

namespace Tasks

open Relation
open Member (Twin)

variable {apart : MessageId → Prop} {s s' t t' : State} {m : Member} {frame : Frame} {f : Flood}

/-! ## Passing by -/

/-- The dispatcher is idle, or passes an envelope on that does not concern the order. -/
inductive PassingBy : Handling → Prop
  | idle : PassingBy .idle
  | arrived {f : Flood} {body : Bytes} (quiet : ¬f.Orders) : PassingBy (.arrived f body)
  | passingOn {f : Flood} {line : String} {targets : List NodeId} (quiet : ¬f.Orders) :
      PassingBy (.passingOn f line targets)
  | routing {f : Flood} (quiet : ¬f.Orders) : PassingBy (.routing f)

theorem route_of_not_orders (h : ¬f.Orders) (m : Member) : route m f = (.idle, m) := by
  unfold route
  split
  · rename_i hpath
    cases hbody : (Record.decode? f.body : Option Ask) with
    | none => rfl
    | some ask => exact absurd (.ask hpath hbody) h
  · rename_i hpath
    cases hbody : (Record.decode? f.body : Option Agreement) with
    | none => rfl
    | some a => exact absurd (.agreement hpath hbody) h
  · rfl

/-- The id that a member sees for the first time in a frame. -/
structure SeenBy (m : Member) (frame : Frame) (id : MessageId) : Prop where
  path : ControlPath.ofText? frame.path = some .reliable
  envelope : ∃ f : Flood, Record.decode? frame.body = some f ∧ f.id = id
  new : id ∉ m.received

/-- A frame that is not heeded changes nothing when it is taken but what was seen, at most. -/
theorem begin_of_unheeded (h : ¬m.Heeds frame) : PassingBy (begin m frame).1 ∧
    ∃ received, (begin m frame).2 = { m with received } ∧
      ∀ id, ¬SeenBy m frame id → (id ∈ m.received ↔ id ∈ received) := by
  have hsame : ∃ received, m = { m with received } ∧
      ∀ id, ¬SeenBy m frame id → (id ∈ m.received ↔ id ∈ received) :=
    ⟨m.received, rfl, fun _ _ => Iff.rfl⟩
  unfold begin
  rcases hpath : ControlPath.ofText? frame.path with _ | _ | _ | _ | _
  case some.reliable =>
    dsimp only
    cases htake : m.takeIn frame with
    | none => exact ⟨.idle, hsame⟩
    | some x =>
      obtain ⟨f, m'⟩ := x
      have hquiet := Member.not_orders_of_unheeded h hpath htake
      obtain ⟨henvelope, hnew, rfl⟩ := Member.takeIn_eq_some htake
      refine ⟨?_, f.id :: m.received, rfl, fun id hid =>
        ⟨List.mem_cons_of_mem f.id, fun hmem => ?_⟩⟩
      · dsimp only
        split
        · exact .routing hquiet
        · exact .arrived hquiet
      · rcases List.mem_cons.1 hmem with rfl | hold
        · exact absurd ⟨hpath, ⟨f, henvelope, rfl⟩, hnew⟩ hid
        · exact hold
  case some.proposal =>
    dsimp only
    rw [Member.onProposal_of_unheeded h hpath]
    exact ⟨.idle, hsame⟩
  all_goals exact ⟨.idle, hsame⟩

theorem twin_begin_of_unheeded (h : ¬m.Heeds frame) (hroomy : m.peers.Roomy)
    (hseen : ∀ id, SeenBy m frame id → apart id) : Twin apart m (begin m frame).2 := by
  obtain ⟨-, received, heq, hreceived⟩ := begin_of_unheeded h
  rw [heq]
  exact ⟨⟨rfl, rfl, rfl, rfl, rfl, rfl, rfl, fun _ => rfl⟩, PeerTable.sameGroup_refl hroomy,
    fun id hid => hreceived id (mt (hseen id) hid)⟩

/-- While it passes an envelope on, the dispatcher does nothing that shows in what orders
    messages. -/
theorem Like.passBy (h : Like apart s s') (hp : PassingBy s'.handling)
    (busy : s'.handling ≠ .idle) (hd : Dispatches s' t') :
    Like apart s t' ∧ PassingBy t'.handling := by
  obtain ⟨_, -, hd⟩ := hd
  unfold dispatch at hd
  generalize hs : s'.handling = x at hp busy
  rw [hs] at hd
  cases hp with
  | idle => exact absurd rfl busy
  | arrived quiet =>
    cases hd
    have hcounted := PeerTable.sameGroup_countForAll h.member.group.roomy'
    exact ⟨(h.trans_sameGroup (hcounted _)).setHandling _, .passingOn quiet⟩
  | @passingOn f line targets quiet =>
    cases targets with
    | nil =>
      cases hd
      exact ⟨h.setHandling _, .routing quiet⟩
    | cons q rest =>
      dsimp only at hd
      split at hd
      · cases hd
      · cases hd
        have hqueued := PeerTable.sameGroup_enqueue h.member.group.roomy' q line
        exact ⟨(h.trans_sameGroup hqueued).setHandling _, .passingOn quiet⟩
  | routing quiet =>
    dsimp only at hd
    rw [route_of_not_orders quiet] at hd
    cases hd
    exact ⟨h.setHandling _, .idle⟩

/-! ## Catching up -/

/-- The dispatcher is done with an envelope that does not concern the order. -/
def CaughtUp (apart : MessageId → Prop) (s s' : State) : Prop :=
  ∃ t', ReflTransGen Step s' t' ∧ Like apart s t' ∧ t'.handling = .idle

theorem CaughtUp.head (h : CaughtUp apart s t') (steps : ReflTransGen Step s' t') :
    CaughtUp apart s s' := by
  obtain ⟨u, hsteps, hlike, hidle⟩ := h
  exact ⟨u, steps.trans hsteps, hlike, hidle⟩

theorem caughtUp_of_routing (h : Like apart s s') (quiet : ¬f.Orders)
    (handling : s'.handling = .routing f) : CaughtUp apart s s' := by
  have hstep := Step.route handling
  rw [route_of_not_orders quiet] at hstep
  exact ⟨_, .single hstep, h.setHandling _, rfl⟩

/-- The envelope is passed on to one member after the other, each time once there is room. -/
theorem caughtUp_of_passingOn (h : Like apart s s') (quiet : ¬f.Orders) {line : String}
    {targets : List NodeId} (handling : s'.handling = .passingOn f line targets) :
    CaughtUp apart s s' := by
  induction targets generalizing s' with
  | nil =>
    exact (caughtUp_of_routing (h.setHandling _) quiet rfl).head (.single (.passed handling))
  | cons q rest ih =>
    obtain ⟨peers, hsteps, hgroup, hroom⟩ := steps_makeRoom h.member.group.roomy' q line
    have hqueued := hgroup.trans (PeerTable.sameGroup_enqueue hgroup.roomy' q line)
    have hrest := ih ((h.trans_sameGroup hqueued).setHandling (.passingOn f line rest)) rfl
    exact hrest.head (hsteps.tail (.passTo (s := s'.setPeers peers) handling hroom))

theorem Like.caughtUp (h : Like apart s s') (hp : PassingBy s'.handling) :
    CaughtUp apart s s' := by
  generalize hs : s'.handling = x at hp
  cases hp with
  | idle => exact ⟨s', .refl, h, hs⟩
  | @arrived f body quiet =>
    have hcounted := PeerTable.sameGroup_countForAll h.member.group.roomy'
      (s'.member.frameLine .reliable body)
    have hpassing := (h.trans_sameGroup hcounted).setHandling
      (.passingOn f (s'.member.frameLine .reliable body) s'.member.peers.liveIds)
    exact (caughtUp_of_passingOn hpassing quiet rfl).head
      (.single (.passOn hs (.refl _)))
  | passingOn quiet => exact caughtUp_of_passingOn h quiet hs
  | routing quiet => exact caughtUp_of_routing h quiet hs

/-! ## With the frame and without it -/

/-- If a frame carries an id that is set apart, it does not concern the order. -/
def Harmless (apart : MessageId → Prop) (frame : Frame) : Prop :=
  ControlPath.ofText? frame.path = some .reliable →
    ∀ f : Flood, Record.decode? frame.body = some f → apart f.id → ¬f.Orders

/-- Two members begin with the same frame. If only one of them has seen the envelope in it, the
    other has nothing to do but to pass it on. -/
theorem begin_of_harmless (h : Twin apart m m') (hframe : Harmless apart frame) :
    Twin apart (begin m frame).2 (begin m' frame).2 ∧
      ((begin m' frame).1 = (begin m frame).1 ∨
        PassingBy (begin m frame).1 ∧ PassingBy (begin m' frame).1) := by
  by_cases hclear : Clear apart frame
  · have hbegin := twin_begin h hclear
    exact ⟨hbegin.2, .inl hbegin.1⟩
  unfold Clear at hclear
  push Not at hclear
  obtain ⟨hpath, f, henvelope, hapart⟩ := hclear
  have hbad := Member.not_heeds_of_not_orders hpath henvelope (hframe hpath f henvelope hapart)
  have hseen (m : Member) (id : MessageId) (hid : SeenBy m frame id) : apart id := by
    obtain ⟨-, ⟨f', henvelope', rfl⟩, -⟩ := hid
    obtain rfl := Option.some.inj (henvelope.symm.trans henvelope')
    exact hapart
  have hbegin := twin_begin_of_unheeded (hbad m) h.group.roomy (hseen m)
  have hbegin' := twin_begin_of_unheeded (hbad m') h.group.roomy' (hseen m')
  exact ⟨(hbegin.symm.trans h).trans hbegin',
    .inr ⟨(begin_of_unheeded (hbad m)).1, (begin_of_unheeded (hbad m')).1⟩⟩

/-- States that agree, but that the dispatcher of either may be busy with an envelope that does
    not concern the order. -/
structure Abreast (apart : MessageId → Prop) (s s' : State) : Prop where
  like : Like apart s s'
  handling : s'.handling = s.handling ∨ PassingBy s.handling ∧ PassingBy s'.handling

theorem Abreast.symm (h : Abreast apart s s') : Abreast apart s' s :=
  ⟨h.like.symm, h.handling.imp Eq.symm And.symm⟩

/-- A step in which the dispatcher does not begin with a frame that concerns the order and carries
    an id that is set apart. -/
structure HarmlessStep (apart : MessageId → Prop) (s t : State) : Prop where
  next : Step s t
  harmless : ∀ frame, s.inbound = frame :: t.inbound → Harmless apart frame

theorem Like.take (h : Like apart s s') (idle : s.handling = .idle) (idle' : s'.handling = .idle)
    (harmless : ∀ frame, s.inbound = frame :: t.inbound → Harmless apart frame)
    (hd : Dispatches s t) : ∃ t', ReflTransGen Step s' t' ∧ Abreast apart t t' := by
  obtain ⟨_, -, hd⟩ := hd
  unfold dispatch at hd
  rw [idle] at hd
  cases hin : s.inbound with
  | nil =>
    rw [hin] at hd
    cases hd
  | cons frame rest =>
    rw [hin] at hd
    cases hd
    have hbegin := begin_of_harmless h.member (harmless frame hin)
    exact ⟨_, .single (.take idle' (h.inbound.trans hin)),
      ⟨hbegin.1, rfl, h.sendings, h.watching⟩, hbegin.2⟩

theorem Abreast.dispatch (h : Abreast apart s s')
    (harmless : ∀ frame, s.inbound = frame :: t.inbound → Harmless apart frame)
    (hd : Dispatches s t) : ∃ t', ReflTransGen Step s' t' ∧ Abreast apart t t' := by
  by_cases hidle : s.handling = .idle
  · -- The other one has to be done with what it passes on before it can begin.
    have hp' : PassingBy s'.handling := by
      rcases h.handling with hsame | ⟨-, hp'⟩
      · exact hsame.trans hidle ▸ .idle
      · exact hp'
    obtain ⟨u, hcaught, hlike, hdone⟩ := h.like.caughtUp hp'
    obtain ⟨t', hsteps, ht⟩ := hlike.take hidle hdone harmless hd
    exact ⟨t', hcaught.trans hsteps, ht⟩
  · rcases h.handling with hsame | ⟨hp, hp'⟩
    · have hlock : Lockstep apart s s' := ⟨h.like, hsame⟩
      obtain ⟨t', hsteps, ht⟩ := hlock.dispatch (fun hi => absurd hi hidle) hd
      exact ⟨t', hsteps, ht.like, .inl ht.handling⟩
    · -- What is passed on on this side shows nowhere on the other.
      obtain ⟨hlike, hpast⟩ := h.like.symm.passBy hp hidle hd
      exact ⟨s', .refl, hlike.symm, .inr ⟨hpast, hp'⟩⟩

theorem Abreast.step (h : Abreast apart s s') (hstep : HarmlessStep apart s t) :
    ∃ t', ReflTransGen Step s' t' ∧ Abreast apart t t' := by
  rcases h.like.other hstep.next with hd | ⟨handling, t', hsteps, hlike, handling'⟩
  · exact h.dispatch hstep.harmless hd
  · refine ⟨t', hsteps, hlike, ?_⟩
    rw [handling, handling']
    exact h.handling

/-- Whatever one member comes to, the other can come to as well. -/
theorem Abreast.run (h : Abreast apart s s') (run : ReflTransGen (HarmlessStep apart) s t) :
    ∃ t', ReflTransGen Step s' t' ∧ Abreast apart t t' := by
  induction run with
  | refl => exact ⟨s', .refl, h⟩
  | tail _ next ih =>
    obtain ⟨u', hsteps, hu⟩ := ih
    obtain ⟨t', hmore, ht⟩ := hu.step next
    exact ⟨t', hsteps.trans hmore, ht⟩

/-! ## Without a trace -/

/-- A line comes to a member that holds no frame, or one that it does not heed. If it were handled
    in one go, nothing that orders messages would change. If it holds no frame, nothing changes at
    all. And when the dispatcher begins with the frame, the member can go on to whatever it could
    without the frame, and to nothing else, but for what was seen and what is passed on; copies of
    the envelope may come again, as long as none of them concerns the order. -/
theorem unheeded_frame_leaves_no_trace {self : NodeId} {nodes : List Node} {capacity : Nat}
    (h : Reachable self nodes capacity s) {line : Bytes}
    (unheeded : ¬∃ frame, Record.decode? line = some frame ∧ s.member.Heeds frame) :
    (∀ receipt m, s.member.receiveLine line = some (receipt, m) →
      m.sequencer = s.member.sequencer ∧ m.collectors = s.member.collectors) ∧
    ((Record.decode? line : Option Frame) = none → s.arrive line = s) ∧
    ∀ frame rest, Record.decode? line = some frame → s.handling = .idle →
      s.inbound = frame :: rest →
      let without := { s with inbound := rest }
      let taken := { s with
        member := (begin s.member frame).2, inbound := rest
        handling := (begin s.member frame).1 }
      Step s taken ∧
      (∀ t, ReflTransGen (HarmlessStep (SeenBy s.member frame)) without t →
        ∃ t', ReflTransGen Step taken t' ∧ Abreast (SeenBy s.member frame) t t') ∧
      ∀ t', ReflTransGen (HarmlessStep (SeenBy s.member frame)) taken t' →
        ∃ t, ReflTransGen Step without t ∧ Abreast (SeenBy s.member frame) t t' := by
  refine ⟨fun receipt m hreceive => ?_, fun hnone => ?_,
    fun frame rest hdecode idle next => ⟨.take idle next, ?_⟩⟩
  · obtain ⟨frame, hdecode, heq⟩ := Option.map_eq_some_iff.1 hreceive
    have halike := Member.alike_receive_of_unheeded fun hheeds => unheeded ⟨frame, hdecode, hheeds⟩
    rw [heq] at halike
    exact ⟨halike.sequencer, halike.collectors⟩
  · unfold State.arrive
    rw [hnone, Option.toList_none, List.append_nil]
  · have hbad : ¬s.member.Heeds frame := fun hheeds => unheeded ⟨frame, hdecode, hheeds⟩
    have htwin := twin_begin_of_unheeded hbad h.roomy fun _ => id
    have hbegun : Abreast (SeenBy s.member frame) { s with inbound := rest }
        { s with
          member := (begin s.member frame).2, inbound := rest
          handling := (begin s.member frame).1 } :=
      ⟨⟨htwin, rfl, rfl, rfl⟩, .inr ⟨idle ▸ .idle, (begin_of_unheeded hbad).1⟩⟩
    refine ⟨fun t run => hbegun.run run, fun t' run => ?_⟩
    obtain ⟨t, hsteps, ht⟩ := hbegun.symm.run run
    exact ⟨t, hsteps, ht.symm⟩

/-- An envelope on a path that has no handler for envelopes, though frames can go on it. -/
def misrouted : Frame :=
  ⟨"b", ControlPath.reliable.text, Record.encode (Flood.mk ⟨10⟩ ControlPath.proposal.text [])⟩

/-- Another envelope of the same id, on a path that nobody knows. -/
def lookalike : Frame := ⟨"b", ControlPath.reliable.text, Record.encode (Flood.mk ⟨10⟩ "/x" [])⟩

/-- A member of a group of two that watches it. -/
def waiting : State :=
  let s := State.init "a" [⟨"a", .v4 .unspecified 1⟩, ⟨"b", .v4 .unspecified 2⟩] 8
  { s with member := { s.member with seenChanges := s.member.peers.changes }, watching := .waiting }

/-- A frame has come to it. -/
def beset (frame : Frame) : State := { waiting with inbound := [frame] }

/-- It has begun with the frame. -/
def busy (frame : Frame) : State :=
  { waiting with
    member := (begin waiting.member frame).2, handling := (begin waiting.member frame).1 }

theorem unheeded_frame_leaves_no_trace_of_misrouted :
    Reachable "a" [⟨"a", .v4 .unspecified 1⟩, ⟨"b", .v4 .unspecified 2⟩] 8 (beset misrouted) ∧
    ¬(beset misrouted).member.Heeds misrouted ∧
    ∃ t', ReflTransGen Step (busy misrouted) t' ∧
      Abreast (SeenBy waiting.member misrouted) (busy lookalike) t' := by
  have hpath := ControlPath.ofText?_text .reliable
  have henvelope : Record.decode? misrouted.body = some _ :=
    Record.decode?_encode (Flood.mk ⟨10⟩ ControlPath.proposal.text [])
  have hbad : ¬(beset misrouted).member.Heeds misrouted :=
    Member.not_heeds_of_not_orders hpath henvelope (Flood.not_orders (by decide) (by decide)) _
  have hwatched : waiting.watching ≠ .unsubscribed := nofun
  have harrive (frame : Frame) : Step waiting (beset frame) := step_arrive_frame hwatched frame
  have hreachable : Reachable "a" [⟨"a", .v4 .unspecified 1⟩, ⟨"b", .v4 .unspecified 2⟩] 8
      (beset misrouted) := .step (.step .init (.subscribe rfl)) (harrive misrouted)
  have hdecode := Record.decode?_encode misrouted
  have hunheeded : ¬∃ frame, Record.decode? (Record.encode misrouted) = some frame ∧
      (beset misrouted).member.Heeds frame := by
    rintro ⟨frame, hframe, hheeds⟩
    obtain rfl := Option.some.inj (hdecode.symm.trans hframe)
    exact hbad hheeds
  have hother : Record.decode? lookalike.body = some _ :=
    Record.decode?_encode (Flood.mk ⟨10⟩ "/x" [])
  have harmless (frame : Frame) (next : (beset lookalike).inbound = [frame]) :
      Harmless (SeenBy waiting.member misrouted) frame := by
    obtain rfl := List.singleton_inj.1 next
    intro _ f hf _
    obtain rfl := Option.some.inj (hother.symm.trans hf)
    exact Flood.not_orders (by decide) (by decide)
  have hrun : ReflTransGen (HarmlessStep (SeenBy waiting.member misrouted)) waiting
      (busy lookalike) :=
    .tail (.single ⟨harrive lookalike, nofun⟩) ⟨.take rfl rfl, harmless⟩
  obtain ⟨-, -, hgo⟩ := unheeded_frame_leaves_no_trace hreachable hunheeded
  obtain ⟨-, hlater, -⟩ := hgo misrouted [] hdecode rfl rfl
  exact ⟨hreachable, hbad, hlater _ hrun⟩

end Tasks

end AgreedOrder
