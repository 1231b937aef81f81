/-
  AgreedOrder.Proofs.Tasks.Head

  No message at the front of a member's queue is left there without need. What
  is free to go is released by the dispatcher, after it changed what is held, or
  by the task that watches the group, after the group changed; so it is never
  forgotten, whatever the tasks of the member do in between.

    * `NothingFree` — nothing held is free.
    * `Attended` — what is free is about to be released.
    * `Aside`, `Attended.step` — what each step does to that.
    * `head_waits_for_live_sender` — the front once everything was dealt with.
-/

import AgreedOrder.Proofs.Flooding.Lines
import AgreedOrder.Proofs.Sequencer.Release
import AgreedOrder.Proofs.Tasks.Handlers

namespace AgreedOrder

open Json

namespace Member

variable {m m' : Member}

/-! ## What is free -/

/-- No message that is held is free to go. -/
def NothingFree (m : Member) : Prop :=
  ∀ id x, m.sequencer.held? id = some x → ¬m.sequencer.Free m.peers.isLive x

theorem nothingFree_release (h : m.sequencer.Coherent) : m.release.NothingFree :=
  fun _ _ hx => (h.released m.peers.isLive).not_free hx

theorem coherent_release (h : m.sequencer.Coherent) : m.release.sequencer.Coherent :=
  (h.released m.peers.isLive).coherent

/-- A message at the front that is not free is not agreed, and its sender is live. -/
theorem NothingFree.front (h : m.NothingFree) (hcoherent : m.sequencer.Coherent) {e : HoldEntry}
    {rest : HoldQueue} (hp : m.sequencer.hold.pop? = some (e, rest)) :
    ∃ x, m.sequencer.held? e.id = some x ∧ x.entry = e ∧ x.message.agreed = false ∧
      m.peers.isLive x.message.sender = true := by
  obtain ⟨x, hx, hentry, -⟩ := hcoherent.front hp
  have hnot := h e.id x hx
  refine ⟨x, hx, hentry, ?_, ?_⟩
  · refine Bool.eq_false_iff.2 fun hagreed => hnot ?_
    exact (hcoherent.free_front hp hx (.inl hagreed)).1
  · by_contra hdead
    exact hnot (hcoherent.free_front hp hx (.inr (Bool.eq_false_iff.2 hdead))).1

end Member

namespace Tasks

variable {s s' : State}

/-! ## What is about to be released -/

/-- What is free to go is about to be released, or the group has changed and the task that watches
    it has not seen that yet. Before that task has looked at the group nothing arrives. -/
structure Attended (s : State) : Prop where
  coherent : s.member.sequencer.Coherent
  seen : s.member.seenChanges ≤ s.member.peers.changes
  early : s.watching = .unsubscribed →
    s.inbound = [] ∧ s.handling = .idle ∧ ∀ id, s.member.sequencer.held? id = none
  attended : s.member.NothingFree ∨ s.handling.IsReleaseDue ∨ s.watching = .noticed ∨
    s.member.seenChanges ≠ s.member.peers.changes

theorem attended_init (self : NodeId) (nodes : List Node) (capacity : Nat) :
    Attended (State.init self nodes capacity) where
  coherent := Sequencer.init_coherent self
  seen := Nat.zero_le _
  early _ := ⟨rfl, rfl, Sequencer.held?_init self⟩
  attended := .inl fun _ _ hx => nomatch hx

end Tasks

/-! ## Steps that concern neither what is held nor the group -/

namespace Member

/-- The same messages are held, the same members are live, and as many changes were seen. -/
structure Aside (m m' : Member) : Prop where
  sequencer : m'.sequencer = m.sequencer
  seenChanges : m'.seenChanges = m.seenChanges
  changes : m'.peers.changes = m.peers.changes
  isLive : ∀ q, m'.peers.isLive q = m.peers.isLive q

theorem aside_refl (m : Member) : Aside m m := ⟨rfl, rfl, rfl, fun _ => rfl⟩

theorem Alike.aside (h : Alike m m') : Aside m m' :=
  ⟨h.sequencer, h.seenChanges, h.changes, h.isLive⟩

theorem aside_countForAll (m : Member) (line : String) :
    Aside m { m with peers := m.peers.countForAll line } :=
  ⟨rfl, rfl, rfl, fun q => m.peers.isLive_countForAll line q⟩

theorem aside_enqueue (m : Member) (q : NodeId) (line : String) :
    Aside m { m with peers := (m.peers.enqueue q line).2 } :=
  ⟨rfl, rfl, (m.peers.isLive_enqueue q line q).2, fun r => (m.peers.isLive_enqueue q line r).1⟩

theorem aside_takeLine (m : Member) (q : NodeId) :
    Aside m { m with peers := (m.peers.takeLine q).2 } := by
  unfold PeerTable.takeLine
  split <;> exact ⟨rfl, rfl, rfl, fun _ => rfl⟩

theorem aside_onProposal (m : Member) (body : Bytes) : Aside m (m.onProposal body) := by
  unfold onProposal
  split <;> exact ⟨rfl, rfl, rfl, fun _ => rfl⟩

end Member

namespace Tasks

open Member (aside_refl aside_countForAll aside_enqueue aside_takeLine)

theorem aside_begin (m : Member) (frame : Frame) : m.Aside (begin m frame).2 := by
  unfold begin
  split
  · split
    · exact aside_refl m
    · rename_i htake
      exact (Member.alike_takeIn htake).aside
  · exact m.aside_onProposal frame.body
  · exact aside_refl m

theorem aside_reply (m : Member) (sender : NodeId) (v : Proposal) :
    m.Aside (reply m sender v).2 := by
  unfold reply
  dsimp only
  split
  · exact aside_refl m
  · rename_i hcount
    have hcounted := PeerTable.isLive_countFor hcount
    exact ⟨rfl, rfl, (hcounted sender).2, fun q => (hcounted q).1⟩

/-- The member changes in no way that counts, and a release that is due stays due. -/
structure Aside (s s' : State) : Prop where
  member : s.member.Aside s'.member
  watching : s'.watching = s.watching
  due : s.handling.IsReleaseDue → s'.handling.IsReleaseDue
  early : s.watching = .unsubscribed → s.inbound = [] → s.handling = .idle →
    s'.inbound = [] ∧ s'.handling = .idle

/-- A step of the dispatcher that is at work on a frame. -/
theorem Aside.ofDispatcher {x : Handling} (handling : s.handling = x)
    (member : s.member.Aside s'.member) (watching : s'.watching = s.watching)
    (busy : s.inbound ≠ [] ∨ x ≠ .idle) (due : ¬x.IsReleaseDue) : Aside s s' := by
  subst handling
  refine ⟨member, watching, fun h => absurd h due, fun _ hinbound hidle => ?_⟩
  exact absurd busy (not_or.2 ⟨not_not.2 hinbound, not_not.2 hidle⟩)

/-- A step of another task. -/
theorem Aside.ofOther (member : s.member.Aside s'.member) (watching : s'.watching = s.watching)
    (inbound : s'.inbound = s.inbound) (handling : s'.handling = s.handling) : Aside s s' :=
  ⟨member, watching, fun h => handling ▸ h, fun _ hinbound hidle =>
    ⟨inbound.trans hinbound, handling.trans hidle⟩⟩

theorem aside_conclude (s : State) (before after : List Collector) (floodId : MessageId)
    (x : Bool × Collector) : Aside s (s.conclude before after floodId x) := by
  rcases x with ⟨_ | _, c⟩ <;> exact .ofOther ⟨rfl, rfl, rfl, fun _ => rfl⟩ rfl rfl rfl

theorem Attended.aside (h : Attended s) (step : Aside s s') : Attended s' where
  coherent := step.member.sequencer ▸ h.coherent
  seen := by
    rw [step.member.seenChanges, step.member.changes]
    exact h.seen
  early hunsubscribed := by
    rw [step.watching] at hunsubscribed
    obtain ⟨hinbound, hidle, hnone⟩ := h.early hunsubscribed
    obtain ⟨hinbound', hidle'⟩ := step.early hunsubscribed hinbound hidle
    rw [step.member.sequencer]
    exact ⟨hinbound', hidle', hnone⟩
  attended := by
    have hfree : s.member.NothingFree → s'.member.NothingFree := by
      unfold Member.NothingFree
      rw [step.member.sequencer, funext step.member.isLive]
      exact id
    rw [step.watching, step.member.seenChanges, step.member.changes]
    exact h.attended.imp hfree (.imp_left step.due)

/-! ## Steps that concern what is held or the group -/

/-- Nothing arrives before the group is watched, so that the dispatcher has nothing to do. -/
theorem Attended.subscribed (h : Attended s) {x : Handling} (handling : s.handling = x)
    (busy : x ≠ .idle) : s.watching ≠ .unsubscribed :=
  fun hunsubscribed => busy (handling ▸ (h.early hunsubscribed).2.1)

/-- After a release nothing is free. -/
theorem Attended.release (h : Attended s) (member : s'.member = s.member.release)
    (subscribed : s'.watching ≠ .unsubscribed) : Attended s' where
  coherent := by
    rw [member]
    exact Member.coherent_release h.coherent
  seen := by
    rw [member]
    exact h.seen
  early hunsubscribed := absurd hunsubscribed subscribed
  attended := by
    rw [member]
    exact .inl (Member.nothingFree_release h.coherent)

/-- The handler of an envelope leaves what is held coherent, and a release is due if that has
    changed. -/
theorem Attended.route (h : Attended s) {f : Flood} (handling : s.handling = .routing f) :
    Attended { s with member := (route s.member f).2, handling := (route s.member f).1 } := by
  have hheld {sequencer : Sequencer} {handling' : Handling} (hcoherent : sequencer.Coherent)
      (hdue' : handling'.IsReleaseDue) :
      Attended { s with member := { s.member with sequencer }, handling := handling' } :=
    ⟨hcoherent, h.seen, fun hunsubscribed => absurd hunsubscribed (h.subscribed handling nofun),
      .inr (.inl hdue')⟩
  have hidle : Attended { s with handling := .idle } :=
    h.aside (.ofDispatcher handling (aside_refl _) rfl (.inr nofun) id)
  unfold Tasks.route
  split
  · split
    · exact hidle
    · exact hheld (h.coherent.onAsk _) trivial
  · split
    · exact hidle
    · exact hheld (h.coherent.onAgreement _) trivial
  · exact hidle

/-- A change of the group makes all that was seen of it so far out of date. -/
theorem Attended.changed (h : Attended s) {peers : PeerTable}
    (changes : peers.changes = s.member.peers.changes + 1) : Attended (s.setPeers peers) where
  coherent := h.coherent
  seen := by
    show s.member.seenChanges ≤ peers.changes
    have := h.seen
    omega
  early := h.early
  attended := by
    refine .inr (.inr (.inr ?_))
    show s.member.seenChanges ≠ peers.changes
    have := h.seen
    omega

theorem Attended.eject (h : Attended s) (q : NodeId) :
    Attended { s with member := (s.member.eject q).2 } := by
  show Attended (s.setPeers (s.member.peers.remove q).2)
  cases hlive : s.member.peers.isLive q with
  -- Giving up somebody who is not there changes nothing.
  | false =>
    rw [PeerTable.remove_of_not_live hlive]
    exact h
  | true =>
    refine h.changed ?_
    rw [PeerTable.changes_remove, if_pos hlive]

theorem Attended.connect (h : Attended s) {q : NodeId} {peers : PeerTable}
    (live : s.member.peers.markConnected q = .ok peers) : Attended (s.setPeers peers) := by
  refine h.changed ?_
  unfold PeerTable.markConnected at live
  split at live
  · cases live
  · cases live
    rfl

/-- The task that watches the group has nothing to catch up with when it begins: nothing is held. -/
theorem Attended.subscribe (h : Attended s) (watching : s.watching = .unsubscribed) :
    Attended { s with
      member := { s.member with seenChanges := s.member.peers.changes }
      watching := .waiting } where
  coherent := h.coherent
  seen := Nat.le_refl _
  early := nofun
  attended := by
    refine .inl fun id x hx => ?_
    have hnone := (h.early watching).2.2 id
    rw [hnone] at hx
    cases hx

theorem Attended.notice (h : Attended s) :
    Attended { s with
      member := { s.member with seenChanges := s.member.peers.changes }
      watching := .noticed } where
  coherent := h.coherent
  seen := Nat.le_refl _
  early := nofun
  attended := .inr (.inr (.inl rfl))

/-! ## Runs -/

theorem Attended.step (h : Attended s) (next : Step s s') : Attended s' := by
  cases next with
  | arrive watched =>
    exact h.aside ⟨aside_refl _, rfl, id, fun hunsubscribed => absurd hunsubscribed watched⟩
  | take idle next =>
    exact h.aside (.ofDispatcher idle (aside_begin _ _) rfl (.inl (by simp [next])) id)
  | passOn handling _ =>
    exact h.aside (.ofDispatcher handling (aside_countForAll _ _) rfl (.inr nofun) id)
  | passTo handling room =>
    exact h.aside (.ofDispatcher handling (aside_enqueue _ _ _) rfl (.inr nofun) id)
  | passed handling =>
    exact h.aside (.ofDispatcher handling (aside_refl _) rfl (.inr nofun) id)
  | route handling => exact h.route handling
  | releaseNumbered handling => exact h.release rfl (h.subscribed handling nofun)
  | reply handling =>
    exact h.aside (.ofDispatcher handling (aside_reply _ _ _) rfl (.inr nofun) id)
  | send handling room =>
    exact h.aside (.ofDispatcher handling (aside_enqueue _ _ _) rfl (.inr nofun) id)
  | releaseNoted handling => exact h.release rfl (h.subscribed handling nofun)
  | submit => exact h.aside (.ofOther ⟨rfl, rfl, rfl, fun _ => rfl⟩ rfl rfl rfl)
  | start sending _ => exact h.aside (.ofOther (aside_countForAll _ _) rfl rfl rfl)
  | enqueue sending room => exact h.aside (.ofOther (aside_enqueue _ _ _) rfl rfl rfl)
  | finish sending => exact h.aside (.ofOther (aside_refl _) rfl rfl rfl)
  | count collecting next => exact h.aside (aside_conclude _ _ _ _ _)
  | recount collecting changed => exact h.aside (aside_conclude _ _ _ _ _)
  | connect live => exact h.connect live
  | write => exact h.aside (.ofOther (aside_takeLine _ _) rfl rfl rfl)
  | dropReader => exact h.aside (.ofOther ⟨rfl, rfl, rfl, fun _ => rfl⟩ rfl rfl rfl)
  | eject => exact h.eject _
  | subscribe watching => exact h.subscribe watching
  | notice watching changed => exact h.notice
  | releaseNoticed watching => exact h.release rfl nofun

variable {self : NodeId} {nodes : List Node} {capacity : Nat}

theorem Reachable.steps (h : Reachable self nodes capacity s)
    (next : Relation.ReflTransGen Step s s') : Reachable self nodes capacity s' := by
  induction next with
  | refl => exact h
  | tail _ next ih => exact ih.step next

theorem Reachable.attended (h : Reachable self nodes capacity s) : Attended s := by
  induction h with
  | init => exact attended_init self nodes capacity
  | step _ next ih => exact ih.step next

/-- Once the frames that were taken are handled, and the task that watches the group is done with
    its last change, a member holds nothing, or its smallest entry is not agreed and belongs to a
    sender that is live. -/
theorem head_waits_for_live_sender (h : Reachable self nodes capacity s)
    (handled : s.handling = .idle) (released : s.watching ≠ .noticed)
    (seen : s.member.seenChanges = s.member.peers.changes) :
    s.member.pending = 0 ∨ ∃ e held,
      s.member.sequencer.hold.peek? = some e ∧
      (∀ id a, s.member.sequencer.hold.get? id = some a → a ≠ e → e.Precedes a) ∧
      s.member.sequencer.messages.get? e.id = some held ∧
      e.agreed = false ∧ held.agreed = false ∧ e.process = held.sender ∧
      s.member.peers.isLive held.sender = true := by
  have hattended := h.attended
  have hcoherent := hattended.coherent
  have hfree : s.member.NothingFree := by
    rcases hattended.attended with hfree | hdue | hnoticed | hstale
    · exact hfree
    · rw [handled] at hdue
      exact hdue.elim
    · exact absurd hnoticed released
    · exact absurd seen hstale
  cases hp : s.member.sequencer.hold.pop? with
  | none =>
    exact .inl (hcoherent.wellFormed.size_eq_zero_iff.2
      (hcoherent.wellFormed.pop?_eq_none_iff.1 hp))
  | some out =>
    obtain ⟨e, rest⟩ := out
    obtain ⟨x, hx, hentry, hopen, hlive⟩ := hfree.front hcoherent hp
    have hfits := hcoherent.fits e.id x hx
    have hleast := (hcoherent.wellFormed.pop?_eq_some hp).2
    refine .inr ⟨e, x.message, ?_, fun id a ha hne => ?_, ?_, ?_, hopen, ?_, hlive⟩
    · rw [HoldQueue.peek?_eq, hp]
      rfl
    · exact HoldEntry.compare_eq_lt_iff.1 (hleast id a ha hne)
    · exact (Sequencer.held?_eq_some_iff.1 hx).1
    · rw [← hentry, hfits.agreed_eq, hopen]
    · rw [← hentry]
      exact (hfits.of_open hopen).2

/-- The frame that brings the ask of another member. -/
def askFrame (sender : NodeId) (id floodId : MessageId) : Frame :=
  ⟨sender, ControlPath.reliable.text,
    Record.encode (Flood.mk floodId ControlPath.ask.text (Record.encode (Ask.mk sender id [])))⟩

/-- A member that an ask came to: it has passed the envelope on, and answers. -/
def afterAsk (m : Member) (sender : NodeId) (id floodId : MessageId) : SendOutcome × Member :=
  let passed := { m with received := floodId :: m.received }.multicast .reliable
    (askFrame sender id floodId).body
  let answer := passed.2.answer ⟨sender, id, []⟩
  answer.2.unicast sender .proposal (Record.encode answer.1)

theorem receive_askFrame {m : Member} {sender : NodeId} {id floodId : MessageId}
    (fresh : floodId ∉ m.received) (other : sender ≠ m.self)
    (passed : ({ m with received := floodId :: m.received }.multicast .reliable
      (askFrame sender id floodId).body).1 = .done)
    (replied : (afterAsk m sender id floodId).1 = .done) :
    m.receive (askFrame sender id floodId) = (.handled, (afterAsk m sender id floodId).2) := by
  unfold afterAsk at replied ⊢
  unfold Member.receive
  rw [show ControlPath.ofText? (askFrame sender id floodId).path = some .reliable from rfl]
  dsimp only
  rw [Member.onReliable_eq, askFrame, Flooding.takeIn_encode, if_neg fresh]
  dsimp only [Flooding.hear]
  rw [if_neg other]
  rcases hpassed : { m with received := floodId :: m.received }.multicast .reliable
    (askFrame sender id floodId).body with ⟨outcome, m'⟩
  rw [hpassed] at passed replied
  obtain rfl : outcome = .done := passed
  unfold askFrame at hpassed
  rw [hpassed]
  dsimp only [Member.onFlood] at replied ⊢
  rw [ControlPath.ofText?_text]
  dsimp only
  rw [Member.onAsk_of_decode (Record.decode?_encode _)]
  rcases hreplied : (m'.answer ⟨sender, id, []⟩).2.unicast sender .proposal
    (Record.encode (m'.answer ⟨sender, id, []⟩).1) with ⟨outcome, m''⟩
  rw [hreplied] at replied
  obtain rfl : outcome = .done := replied
  rfl

/-- A member of a group of three that watches it. -/
def watcher : Member :=
  let m := Member.init "a"
    [⟨"a", .v4 .unspecified 1⟩, ⟨"b", .v4 .unspecified 2⟩, ⟨"c", .v4 .unspecified 3⟩] 8
  { m with seenChanges := m.peers.changes }

/-- It has answered an ask of each of the others. -/
def answering : Member := (afterAsk (afterAsk watcher "c" ⟨1⟩ ⟨11⟩).2 "b" ⟨2⟩ ⟨12⟩).2

/-- It has given up the one whose ask came first, and has dealt with that. -/
def bereaved : State :=
  { member := (answering.eject "c").2.watchGroup
    inbound := [], handling := .idle, sendings := [], watching := .waiting }

theorem reachable_bereaved : Reachable "a"
    [⟨"a", .v4 .unspecified 1⟩, ⟨"b", .v4 .unspecified 2⟩, ⟨"c", .v4 .unspecified 3⟩] 8
    bereaved := by
  have hfirst : watcher.receive (askFrame "c" ⟨1⟩ ⟨11⟩)
      = (.handled, (afterAsk watcher "c" ⟨1⟩ ⟨11⟩).2) :=
    receive_askFrame (by decide +kernel) (by decide +kernel) (by decide +kernel) (by decide +kernel)
  have hsecond : (afterAsk watcher "c" ⟨1⟩ ⟨11⟩).2.receive (askFrame "b" ⟨2⟩ ⟨12⟩)
      = (.handled, answering) :=
    receive_askFrame (by decide +kernel) (by decide +kernel) (by decide +kernel) (by decide +kernel)
  have hwatcher : Reachable "a" _ 8 ⟨watcher, [], .idle, [], .waiting⟩ :=
    .step .init (.subscribe rfl)
  have hone := hwatcher.steps (@steps_arrive _ (askFrame "c" ⟨1⟩ ⟨11⟩) nofun rfl rfl rfl
    (by rw [hfirst]; exact nofun))
  rw [hfirst] at hone
  have htwo := hone.steps (@steps_arrive _ (askFrame "b" ⟨2⟩ ⟨12⟩) nofun
    (by decide +kernel) rfl rfl (by rw [hsecond]; exact nofun))
  rw [hsecond] at htwo
  exact (htwo.step (.eject (q := "c"))).steps (steps_watchGroup rfl)

theorem head_waits_for_remaining_sender : bereaved.handling = .idle ∧ bereaved.watching ≠ .noticed ∧
    bereaved.member.seenChanges = bereaved.member.peers.changes ∧
    bereaved.member.sequencer.hold.peek? = some ⟨2, false, "b", ⟨2⟩⟩ ∧
    bereaved.member.peers.isLive "b" = true := by
  have hseen : bereaved.member.seenChanges = bereaved.member.peers.changes := by decide +kernel
  have hfront : bereaved.member.sequencer.hold.peek? = some ⟨2, false, "b", ⟨2⟩⟩ := by
    decide +kernel
  refine ⟨rfl, nofun, hseen, hfront, ?_⟩
  rcases head_waits_for_live_sender reachable_bereaved rfl nofun hseen with
    hnone | ⟨e, held, he, -, -, -, -, hsender, hlive⟩
  · exact absurd hnone (by decide +kernel)
  · rw [hfront] at he
    cases he
    rw [← hsender] at hlive
    exact hlive

end Tasks

end AgreedOrder
