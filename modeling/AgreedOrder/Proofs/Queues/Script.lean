/-
  AgreedOrder.Proofs.Queues.Script

  A member that sends, handles frames, and has others registered and taken out,
  one thing after the other, while nobody takes lines from its queues. Each
  thing it does addresses lines to members, and these lines alone, in their
  order, are what the queues hold and the counters count.

    * `Act`, `Act.perform`, `run`, `Unblocked` — what is done, one after the other.
    * `Act.events`, `log` — what that means for the members.
    * `carries_perform` — one act.
    * `queues_hold_what_was_addressed` — any number of them.
-/

import AgreedOrder.Proofs.Protocol.Handlers
import AgreedOrder.Proofs.Queues.Account

namespace AgreedOrder.Queues

open Json

/-! ## Acts -/

/-- Something that a member does, or that is done to it. -/
inductive Act
  | multicast (path : ControlPath) (body : Bytes)
  | flood (id : MessageId) (path : ControlPath) (body : Bytes)
  | submit (id floodId : MessageId) (message : Message)
  | unicast (target : NodeId) (path : ControlPath) (body : Bytes)
  | receive (frame : Frame)
  /-- One collection of votes takes into account what came in. -/
  | count (index : Nat) (floodId : MessageId)
  /-- What it does of its own accord: it releases messages and announces agreements. -/
  | settle (ids : IdSource)
  | register (node : Node) (capacity : Nat)
  /-- Nobody reads the queue of a member any more. -/
  | abandon (id : NodeId)
  | eject (id : NodeId)

/-- Announce the agreement of a collection of votes that is over. Gives what became of it. -/
def announcing (m : Member) (floodId : MessageId) (v : Votes) : SendOutcome × Member :=
  match v.agreement with
  | none => (.done, m)
  | some a => m.flood floodId .agreement (Record.encode a)

theorem announcing_snd (m : Member) (floodId : MessageId) (v : Votes) :
    (announcing m floodId v).2 = m.announce floodId v := by
  unfold announcing Member.announce
  cases v.agreement <;> rfl

/-- Whether one of several announcements has to wait. -/
def announcementWaits : List Votes → IdSource → Member → Bool
  | [], _, _ => false
  | v :: rest, ids, m =>
    (announcing m ids.fresh.1 v).1 == .blocked ||
      announcementWaits rest ids.fresh.2 (m.announce ids.fresh.1 v)

/-- Do something. Gives what became of it. -/
def Act.perform (m : Member) : Act → SendOutcome × Member
  | .multicast path body => m.multicast path body
  | .flood id path body => m.flood id path body
  | .submit id floodId message => m.submit id floodId message
  | .unicast target path body => m.unicast target path body
  | .receive frame =>
    (if (m.receive frame).1 = .blocked then .blocked else .done, (m.receive frame).2)
  | .count index floodId =>
    match m.collectors[index]? with
    | none => (.done, m)
    | some c =>
      match c.advance m.peers.liveIds m.peers.changes with
      | (false, c) => (.done, { m with collectors := m.collectors.set index c })
      | (true, c) => announcing { m with collectors := m.collectors.eraseIdx index } floodId c.votes
  | .settle ids =>
    let decided := m.watchGroup.advanceCollectors
    (if announcementWaits decided.1 ids decided.2 then .blocked else .done, (m.settle ids).1)
  | .register node capacity => (.done, { m with peers := m.peers.add node capacity })
  | .abandon id => (.done, { m with peers := m.peers.dropReader id })
  | .eject id => (.done, (m.eject id).2)

/-- Do one thing after the other. -/
def run (m : Member) (acts : List Act) : Member := acts.foldl (fun m a => (a.perform m).2) m

/-- Nothing that is done has to wait for room in a queue. -/
def Unblocked (m : Member) : List Act → Prop
  | [] => True
  | a :: acts => (a.perform m).1 ≠ .blocked ∧ Unblocked (a.perform m).2 acts

instance decidableUnblocked : (m : Member) → (acts : List Act) → Decidable (Unblocked m acts)
  | _, [] => isTrue trivial
  | m, a :: acts =>
    have := decidableUnblocked (a.perform m).2 acts
    inferInstanceAs (Decidable (_ ∧ _))

/-! ## Events -/

/-- The line of a flooded envelope. -/
def floodLine (m : Member) (f : Flood) : String := m.frameLine .reliable (Record.encode f)

/-- What is addressed to members by the handler of an envelope: the answer to an ask. -/
def answerEvents (m : Member) (f : Flood) : List Event :=
  match ControlPath.ofText? f.path with
  | some .ask =>
    (Record.decode? f.body : Option Ask).toList.map fun ask =>
      .toOne ask.sender (m.frameLine .proposal (Record.encode (m.sequencer.onAsk ask).1))
  | _ => []

/-- What is addressed to members when a frame is handled. A new envelope is passed on as it came,
    unless it comes from the member itself, and then handled. -/
def frameEvents (m : Member) (frame : Frame) : List Event :=
  match ControlPath.ofText? frame.path, (Record.decode? frame.body : Option Flood) with
  | some .reliable, some f =>
    if m.received.contains f.id then []
    else
      (if frame.sender = m.self then [] else [.toAll (m.frameLine .reliable frame.body)])
        ++ answerEvents m f
  | _, _ => []

/-- What is addressed to members when a collection of votes is over. -/
def agreementEvents (m : Member) (floodId : MessageId) (v : Votes) : List Event :=
  v.agreement.toList.map fun a =>
    .toAll (floodLine m ⟨floodId, ControlPath.agreement.text, Record.encode a⟩)

/-- What is addressed to members when several are. -/
def announcementEvents (m : Member) : List Votes → IdSource → List Event
  | [], _ => []
  | v :: rest, ids => agreementEvents m ids.fresh.1 v ++ announcementEvents m rest ids.fresh.2

/-- What an act means for the members. -/
def Act.events (m : Member) : Act → List Event
  | .multicast path body => [.toAll (m.frameLine path body)]
  | .flood id path body => [.toAll (floodLine m ⟨id, path.text, body⟩)]
  | .submit id floodId message => [.toAll (floodLine m (m.askEnvelope id floodId message))]
  | .unicast target path body => [.toOne target (m.frameLine path body)]
  | .receive frame => frameEvents m frame
  | .count index floodId =>
    match m.collectors[index]? with
    | none => []
    | some c =>
      match c.advance m.peers.liveIds m.peers.changes with
      | (false, _) => []
      | (true, c) => agreementEvents m floodId c.votes
  | .settle ids => announcementEvents m m.watchGroup.advanceCollectors.1 ids
  | .register node capacity => [.registered node capacity]
  | .abandon id => [.abandoned id]
  | .eject id => [.ejected id]

/-- What several acts mean for the members. -/
def log (m : Member) : List Act → List Event
  | [] => []
  | a :: acts => a.events m ++ log (a.perform m).2 acts

/-! ## Acts are their events -/

/-- The queues and counters of a member went through events, and it still runs. -/
structure Carries (m : Member) (es : List Event) (m' : Member) : Prop where
  peers : carryAll m.peers es = some m'.peers
  stopped : m'.stopped = m.stopped
  self : m'.self = m.self

variable {m m' m'' : Member} {es more : List Event}

theorem carries_nil (hpeers : m'.peers = m.peers) (hstopped : m'.stopped = m.stopped)
    (hself : m'.self = m.self) : Carries m [] m' :=
  ⟨congrArg some hpeers.symm, hstopped, hself⟩

theorem Carries.trans (h : Carries m es m') (h' : Carries m' more m'') :
    Carries m (es ++ more) m'' := by
  refine ⟨?_, h'.stopped.trans h.stopped, h'.self.trans h.self⟩
  rw [carryAll_append, h.peers]
  exact h'.peers

theorem carries_singleton {e : Event} (h : carry m.peers e = some m'.peers)
    (hstopped : m'.stopped = m.stopped) (hself : m'.self = m.self) : Carries m [e] m' := by
  refine ⟨?_, hstopped, hself⟩
  show (carry m.peers e).bind _ = _
  rw [h]
  rfl

/-- A line that a member put into queues one after the other is in them. -/
theorem sendTo_of_enqueueAll {line : String} {targets : List NodeId}
    (h : Member.enqueueAll line targets m = (.done, m')) :
    sendTo line targets m.peers = some m'.peers := by
  induction targets generalizing m with
  | nil =>
    cases h
    rfl
  | cons id rest ih =>
    obtain ⟨hroom, hrest⟩ := Member.enqueueAll_cons_eq_done h
    have hgo := ih hrest
    rw [sendTo]
    rcases henqueue : m.peers.enqueue id line with ⟨o, peers⟩
    rw [henqueue] at hroom hgo
    cases o with
    | full => exact absurd rfl hroom
    | queued => exact hgo
    | closed => exact hgo

theorem carries_multicast (running : m.stopped = false) {path : ControlPath} {body : Bytes}
    (h : (m.multicast path body).1 ≠ .blocked) :
    Carries m [.toAll (m.frameLine path body)] (m.multicast path body).2 := by
  have halike := m.alike_multicast path body
  exact carries_singleton (sendTo_of_enqueueAll (Member.multicast_eq_done running h))
    halike.stopped halike.self

theorem carries_unicast (running : m.stopped = false) {target : NodeId} {path : ControlPath}
    {body : Bytes} (h : (m.unicast target path body).1 ≠ .blocked) :
    Carries m [.toOne target (m.frameLine path body)] (m.unicast target path body).2 := by
  have halike := m.alike_unicast target path body
  refine carries_singleton ?_ halike.stopped halike.self
  unfold Member.unicast at h ⊢
  unfold carry
  dsimp only at h ⊢
  cases hcount : m.peers.countFor target (m.frameLine path body) with
  | error e => rfl
  | ok peers =>
    rw [hcount] at h
    dsimp only at h ⊢
    rw [sendTo]
    rcases henqueue : peers.enqueue target (m.frameLine path body) with ⟨o, peers'⟩
    rw [henqueue] at h
    cases o with
    | queued => rfl
    | closed =>
      rcases peers.enqueue_cases target (m.frameLine path body) with ⟨b, -, -, heq⟩ | ⟨o, -, heq, -⟩
      · rw [heq] at henqueue
        cases henqueue
      · rw [heq] at henqueue
        cases henqueue
        rfl
    | full =>
      refine absurd ?_ h
      show Member.whenFull _ = _
      rw [Member.whenFull, show ({ m with peers } : Member).stopped = false from running]
      rfl

theorem carries_onAsk (running : m.stopped = false) {body : Bytes}
    (h : (m.onAsk body).1 ≠ .blocked) :
    Carries m ((Record.decode? body : Option Ask).toList.map fun ask =>
        .toOne ask.sender (m.frameLine .proposal (Record.encode (m.sequencer.onAsk ask).1)))
      (m.onAsk body).2 := by
  cases hask : (Record.decode? body : Option Ask) with
  | none =>
    unfold Member.onAsk
    rw [hask]
    exact carries_nil rfl rfl rfl
  | some ask =>
    obtain ⟨hmember, hsent⟩ := Member.onAsk_outcome hask m
    have hanswered : Carries m [] (m.answer ask).2 := carries_nil rfl rfl rfl
    rw [hmember]
    exact hanswered.trans (carries_unicast (m := (m.answer ask).2) running (hsent h))

theorem carries_onFlood (running : m.stopped = false) {f : Flood}
    (h : (m.onFlood f).1 ≠ .blocked) : Carries m (answerEvents m f) (m.onFlood f).2 := by
  unfold Member.onFlood at h ⊢
  unfold answerEvents
  rcases hpath : ControlPath.ofText? f.path with _ | _ | _ | _ | _
  case some.ask =>
    rw [hpath] at h
    exact carries_onAsk running h
  case some.agreement =>
    unfold Member.onAgreement
    dsimp only
    split <;> exact carries_nil rfl rfl rfl
  all_goals exact carries_nil rfl rfl rfl

theorem carries_onReliable (running : m.stopped = false) {frame : Frame}
    (path : ControlPath.ofText? frame.path = some .reliable)
    (h : (m.onReliable frame).1 ≠ .blocked) :
    Carries m (frameEvents m frame) (m.onReliable frame).2 := by
  unfold Member.onReliable at h ⊢
  unfold frameEvents
  rw [path]
  cases hf : (Record.decode? frame.body : Option Flood) with
  | none => exact carries_nil rfl rfl rfl
  | some f =>
    rw [hf] at h
    dsimp only at h ⊢
    cases hseen : m.received.contains f.id with
    | true => exact carries_nil rfl rfl rfl
    | false =>
      rw [hseen] at h
      simp only [Bool.false_eq_true, if_false] at h ⊢
      have hheard : Carries m [] { m with received := f.id :: m.received } :=
        carries_nil rfl rfl rfl
      by_cases hself : frame.sender = m.self
      · rw [if_pos hself] at h ⊢
        rw [if_pos hself]
        exact hheard.trans (carries_onFlood (m := { m with received := f.id :: m.received })
          running h)
      · rw [if_neg hself] at h ⊢
        rw [if_neg hself]
        have hpassed (h : (Member.multicast { m with received := f.id :: m.received } .reliable
            frame.body).1 ≠ .blocked) :=
          carries_multicast (m := { m with received := f.id :: m.received }) running h
        have halike := Member.alike_multicast { m with received := f.id :: m.received } .reliable
          frame.body
        rcases hm : Member.multicast { m with received := f.id :: m.received } .reliable frame.body
          with ⟨outcome, m'⟩
        rw [hm] at h hpassed halike
        have hanswer : answerEvents m' f = answerEvents m f := by
          unfold answerEvents Member.frameLine
          rw [halike.sequencer, halike.self]
        have hrouted (h : (m'.onFlood f).1 ≠ .blocked) :=
          carries_onFlood (halike.stopped.trans running) h
        rw [hanswer] at hrouted
        cases outcome with
        | blocked => exact absurd rfl h
        | done => exact hheard.trans ((hpassed nofun).trans (hrouted h))
        | failed e => exact hheard.trans ((hpassed nofun).trans (hrouted h))

theorem carries_receive (running : m.stopped = false) {frame : Frame}
    (h : (m.receive frame).1 ≠ .blocked) :
    Carries m (frameEvents m frame) (m.receive frame).2 := by
  rcases hpath : ControlPath.ofText? frame.path with _ | _ | _ | _ | _
  case some.reliable =>
    obtain ⟨hmember, hhandled⟩ := Member.receive_outcome hpath m
    rw [hmember]
    exact carries_onReliable running hpath (hhandled h)
  case some.proposal =>
    unfold Member.receive Member.onProposal frameEvents
    rw [hpath]
    dsimp only
    split <;> exact carries_nil rfl rfl rfl
  all_goals
    unfold Member.receive frameEvents
    rw [hpath]
    exact carries_nil rfl rfl rfl

theorem carries_submit (running : m.stopped = false) {id floodId : MessageId} {message : Message}
    (h : (m.submit id floodId message).1 ≠ .blocked) :
    Carries m [.toAll (floodLine m (m.askEnvelope id floodId message))]
      (m.submit id floodId message).2 := by
  rw [Member.submit_eq running] at h ⊢
  have hopened : Carries m [] (m.openCollector id) := carries_nil rfl rfl rfl
  exact hopened.trans (carries_multicast (m := m.openCollector id) running h)

theorem announcementEvents_congr (hself : m'.self = m.self) (decided : List Votes)
    (ids : IdSource) : announcementEvents m' decided ids = announcementEvents m decided ids := by
  induction decided generalizing ids with
  | nil => rfl
  | cons v rest ih =>
    rw [announcementEvents, announcementEvents, ih]
    unfold agreementEvents floodLine Member.frameLine
    rw [hself]

theorem carries_announcing (running : m.stopped = false) {v : Votes} {floodId : MessageId}
    (h : (announcing m floodId v).1 ≠ .blocked) :
    Carries m (agreementEvents m floodId v) (announcing m floodId v).2 := by
  unfold announcing agreementEvents at *
  cases hv : v.agreement with
  | none => exact carries_nil rfl rfl rfl
  | some a =>
    rw [hv] at h
    exact carries_multicast running h

theorem carries_count (running : m.stopped = false) {index : Nat} {floodId : MessageId}
    (h : (Act.perform m (.count index floodId)).1 ≠ .blocked) :
    Carries m (Act.events m (.count index floodId)) (Act.perform m (.count index floodId)).2 := by
  unfold Act.perform at h ⊢
  unfold Act.events
  dsimp only at h ⊢
  cases hc : m.collectors[index]? with
  | none => exact carries_nil rfl rfl rfl
  | some c =>
    rw [hc] at h
    dsimp only at h ⊢
    rcases hadvance : c.advance m.peers.liveIds m.peers.changes with ⟨_ | _, c'⟩
    · exact carries_nil rfl rfl rfl
    · rw [hadvance] at h
      have hremoved : Carries m [] { m with collectors := m.collectors.eraseIdx index } :=
        carries_nil rfl rfl rfl
      exact hremoved.trans (carries_announcing
        (m := { m with collectors := m.collectors.eraseIdx index }) running h)

theorem carries_announcements (running : m.stopped = false) {decided : List Votes}
    {ids : IdSource} (h : announcementWaits decided ids m = false) :
    Carries m (announcementEvents m decided ids)
      (decided.foldl (fun (x : Member × IdSource) v => (x.1.announce x.2.fresh.1 v, x.2.fresh.2))
        (m, ids)).1 := by
  induction decided generalizing m ids with
  | nil => exact carries_nil rfl rfl rfl
  | cons v rest ih =>
    rw [announcementWaits, Bool.or_eq_false_iff] at h
    obtain ⟨hfirst, hrest⟩ := h
    have hannounced : Carries m (agreementEvents m ids.fresh.1 v) (announcing m ids.fresh.1 v).2 :=
      carries_announcing running (ne_of_beq_false hfirst)
    rw [announcing_snd] at hannounced
    have hgo := ih (hannounced.stopped.trans running) hrest
    rw [announcementEvents_congr hannounced.self] at hgo
    rw [announcementEvents, List.foldl_cons]
    exact hannounced.trans hgo

theorem carries_settle (running : m.stopped = false) {ids : IdSource}
    (h : (Act.perform m (.settle ids)).1 ≠ .blocked) :
    Carries m (announcementEvents m m.watchGroup.advanceCollectors.1 ids) (m.settle ids).1 := by
  -- Neither a look at the group nor the count of votes touches a queue.
  have hcounted : Carries m [] m.watchGroup.advanceCollectors.2 := by
    unfold Member.advanceCollectors Member.watchGroup
    split <;> exact carries_nil rfl rfl rfl
  have hnot : announcementWaits m.watchGroup.advanceCollectors.1 ids
      m.watchGroup.advanceCollectors.2 = false := by
    rw [Bool.eq_false_iff]
    intro hwaits
    exact h (if_pos hwaits)
  have hannounced := carries_announcements (hcounted.stopped.trans running) hnot
  rw [announcementEvents_congr hcounted.self] at hannounced
  unfold Member.settle
  rw [running]
  exact hcounted.trans hannounced

/-- What an act does to queues and counters is what it means for the members. -/
theorem carries_perform (running : m.stopped = false) {a : Act} (h : (a.perform m).1 ≠ .blocked) :
    Carries m (a.events m) (a.perform m).2 := by
  cases a with
  | multicast path body => exact carries_multicast running h
  | flood id path body => exact carries_multicast running h
  | submit id floodId message => exact carries_submit running h
  | unicast target path body => exact carries_unicast running h
  | receive frame => exact carries_receive running fun hblocked => h (if_pos hblocked)
  | count index floodId => exact carries_count running h
  | settle ids => exact carries_settle running h
  | register node capacity => exact carries_singleton rfl rfl rfl
  | abandon id => exact carries_singleton rfl rfl rfl
  | eject id => exact carries_singleton rfl rfl rfl

theorem carries_run (running : m.stopped = false) {acts : List Act} (h : Unblocked m acts) :
    Carries m (log m acts) (run m acts) := by
  induction acts generalizing m with
  | nil => exact carries_nil rfl rfl rfl
  | cons a acts ih =>
    have hfirst := carries_perform running h.1
    exact hfirst.trans (ih (hfirst.stopped.trans running) h.2)

/-! ## New members -/

/-- A new member has registered its group. -/
def registrations (nodes : List Node) (capacity : Nat) : List Event :=
  nodes.map fun n => .registered n capacity

theorem carryAll_registrations (nodes : List Node) (capacity : Nat) (t : PeerTable) :
    carryAll t (registrations nodes capacity)
      = some (nodes.foldl (fun t n => t.add n capacity) t) := by
  induction nodes generalizing t with
  | nil => rfl
  | cons n nodes ih => exact ih (t.add n capacity)

/-! ## Members that are not live -/

theorem not_registers_frameEvents {q : NodeId} {frame : Frame} {e : Event}
    (h : e ∈ frameEvents m frame) : ¬e.Registers q := by
  unfold frameEvents answerEvents at h
  split at h
  · split at h
    · cases h
    · rcases List.mem_append.1 h with h | h
      · split at h
        · cases h
        · obtain rfl := List.mem_singleton.1 h
          exact id
      · split at h
        · obtain ⟨ask, -, rfl⟩ := List.mem_map.1 h
          exact id
        · cases h
  · cases h

theorem not_registers_agreementEvents {q : NodeId} {v : Votes} {floodId : MessageId} {e : Event}
    (h : e ∈ agreementEvents m floodId v) : ¬e.Registers q := by
  obtain ⟨a, -, rfl⟩ := List.mem_map.1 h
  exact id

theorem not_registers_announcementEvents {q : NodeId} {decided : List Votes} {ids : IdSource}
    {e : Event} (h : e ∈ announcementEvents m decided ids) : ¬e.Registers q := by
  induction decided generalizing ids with
  | nil => cases h
  | cons v rest ih =>
    rcases List.mem_append.1 h with h | h
    · exact not_registers_agreementEvents h
    · exact ih h

/-- Only a registration registers anybody. -/
theorem not_registers_events {q : NodeId} {a : Act}
    (ha : ∀ node capacity, a = .register node capacity → node.id ≠ q) :
    ∀ e ∈ a.events m, ¬e.Registers q := by
  intro e he
  cases a with
  | receive frame => exact not_registers_frameEvents he
  | count index floodId =>
    unfold Act.events at he
    dsimp only at he
    split at he
    · cases he
    · split at he
      · cases he
      · exact not_registers_agreementEvents he
  | settle ids => exact not_registers_announcementEvents he
  | register node capacity =>
    obtain rfl := List.mem_singleton.1 he
    exact ha node capacity rfl
  | multicast | flood | submit | unicast | abandon | eject =>
    obtain rfl := List.mem_singleton.1 he
    exact id

/-! ## Whole scripts -/

/-- Whatever a new member does and is done to it, while it never has to wait and nobody takes lines
    from its queues: a member is live if it has an account, and then its counters are those of the
    account and its queue, if it is read, holds the lines of the account and no more than fit. What
    is done next puts nothing into the queue of a member that is not live, and a line for one such
    member alone is refused and changes nothing. -/
theorem queues_hold_what_was_addressed (self : NodeId) (nodes : List Node) (capacity : Nat)
    (acts : List Act) (unblocked : Unblocked (Member.init self nodes capacity) acts) :
    let start := Member.init self nodes capacity
    let m := run start acts
    (∀ q, (m.peers.isLive q = true ↔
        (account q (registrations nodes capacity ++ log start acts)).isSome = true) ∧
      ∀ a, account q (registrations nodes capacity ++ log start acts) = some a →
        ∃ peer b, m.peers.peers.get? q = some peer ∧ m.peers.outboxes.get? q = some b ∧
          a.Holds peer b) ∧
    (∀ (q : NodeId) (a : Act), m.peers.isLive q = false → (a.perform m).1 ≠ .blocked →
      (∀ node capacity, a = .register node capacity → node.id ≠ q) →
      (a.perform m).2.peers.waiting q = m.peers.waiting q) ∧
    ∀ target path body, m.peers.isLive target = false →
      m.unicast target path body = (.failed (.unknownPeer target), m) := by
  have hcarries := carries_run (m := Member.init self nodes capacity) rfl unblocked
  have hall : carryAll .empty (registrations nodes capacity
      ++ log (Member.init self nodes capacity) acts)
        = some (run (Member.init self nodes capacity) acts).peers := by
    rw [carryAll_append, carryAll_registrations]
    exact hcarries.peers
  refine ⟨fun q => ?_, fun q a hq hunblocked ha => ?_, fun target path body htarget => ?_⟩
  · have hmatches := matches_account hall q
    rw [PeerTable.isLive, SortedMap.contains]
    cases haccount : account q (registrations nodes capacity
        ++ log (Member.init self nodes capacity) acts) with
    | none =>
      rw [haccount] at hmatches
      rw [show (run (Member.init self nodes capacity) acts).peers.peers.get? q = none from hmatches]
      exact ⟨Iff.rfl, fun _ ha => absurd ha.symm (Option.some_ne_none _)⟩
    | some a =>
      rw [haccount] at hmatches
      obtain ⟨peer, b, hpeer, hb, hholds⟩ := hmatches
      rw [hpeer]
      refine ⟨Iff.rfl, fun a' ha' => ?_⟩
      cases ha'
      exact ⟨peer, b, rfl, hb, hholds⟩
  · have hcarried := carries_perform (hcarries.stopped.trans rfl) hunblocked
    exact waiting_carryAll hq (not_registers_events ha) hcarried.peers
  · exact Member.unicast_of_not_live htarget path body

/-- Member `c` joins after a multicast, and nobody reads for `b` any more. -/
def joining : List Act :=
  [.multicast .proposal [1], .register ⟨"c", .v4 .unspecified 3⟩ 2, .unicast "c" .proposal [2],
    .abandon "b", .flood ⟨7⟩ .ask [3], .eject "d", .unicast "d" .proposal [4]]

theorem queues_hold_what_was_addressed_joining :
    let start := Member.init "a" [⟨"b", .v4 .unspecified 2⟩, ⟨"d", .v4 .unspecified 4⟩] 8
    Unblocked start joining ∧ (run start joining).peers.isLive "c" = true ∧
      (run start joining).peers.waiting "c"
        = [start.frameLine .proposal [2], floodLine start ⟨⟨7⟩, ControlPath.ask.text, [3]⟩] := by
  intro start
  have hunblocked : Unblocked start joining := by decide +kernel
  obtain ⟨hlive, hholds⟩ := (queues_hold_what_was_addressed "a"
    [⟨"b", .v4 .unspecified 2⟩, ⟨"d", .v4 .unspecified 4⟩] 8 joining hunblocked).1 "c"
  obtain ⟨peer, b, -, hb, h⟩ := hholds ⟨2, [start.frameLine .proposal [2],
    floodLine start ⟨⟨7⟩, ControlPath.ask.text, [3]⟩], true⟩ rfl
  refine ⟨hunblocked, hlive.2 rfl, ?_⟩
  rw [PeerTable.waiting, hb]
  exact h.lines rfl

end AgreedOrder.Queues
