/-
  AgreedOrder.Proofs.Collecting.Decision

  A collection of votes decides once: after the first reply or change it handles
  with which every live member has voted, and on the largest of the numbers in
  the latest replies. When it has nothing left to handle and goes on waiting,
  the vote of a live member is missing.

    * `Complete` — what a collection waits for.
    * `Tracks` — what it knows and where it stands, at any time.
    * `decides_once` — when it announces, and what.
    * `arrival_order_matters` — replies of processes that are not live.
-/

import AgreedOrder.Proofs.Collecting.Replies
import AgreedOrder.Proofs.Collecting.Step
import Mathlib.Data.List.Induction
import Mathlib.Data.List.Infix

namespace AgreedOrder.Collecting

/-! ## Completeness -/

/-- The replies that were looked at. -/
def counted (looks : List Look) : List Proposal := looks.filterMap (·.vote?)

/-- What a collection waits for: at its last look somebody had voted, and everybody who was live
    had. -/
def Complete (id : MessageId) (looks : List Look) : Prop :=
  (∃ q, Voted id (counted looks) q) ∧
    ∀ look ∈ looks.getLast?, ∀ q ∈ look.live, Voted id (counted looks) q

/-- The replies that were taken. -/
def State.taken (s : State) : List Proposal := counted s.looks ++ s.stage.vote?.toList

variable {id : MessageId} {s : State} {looks : List Look}

theorem counted_append_singleton (looks : List Look) (look : Look) :
    counted (looks ++ [look]) = counted looks ++ look.vote?.toList := by
  unfold counted
  rw [List.filterMap_append]
  cases h : look.vote? <;> simp [h]

theorem State.taken_of_waiting (h : s.stage = .waiting) : s.taken = counted s.looks := by
  rw [taken, h]
  exact List.append_nil _

theorem State.taken_of_over (h : s.stage = .over) : s.taken = counted s.looks := by
  rw [taken, h]
  exact List.append_nil _

/-- One more look takes in what was taken. -/
theorem State.taken_of_checking {vote? : Option Proposal} (h : s.stage = .checking vote?)
    (live : List NodeId) : s.taken = counted (s.looks ++ [Look.mk vote? live]) := by
  rw [taken, h, counted_append_singleton]
  rfl

theorem complete_append_singleton (look : Look) :
    Complete id (looks ++ [look]) ↔
      (∃ q, Voted id (counted (looks ++ [look])) q) ∧
        ∀ q ∈ look.live, Voted id (counted (looks ++ [look])) q := by
  unfold Complete
  rw [List.getLast?_concat]
  simp only [Option.mem_some_iff, forall_eq']

theorem not_complete_nil : ¬Complete id [] := by
  rintro ⟨⟨q, v, hv, -⟩, -⟩
  exact absurd hv List.not_mem_nil

/-- A collection that knows the latest replies sees whether all members have voted. -/
theorem isComplete_iff {c : Collector} {vs : List Proposal}
    (hlatest : ∀ q, c.votes.numbers.get? q = latest id vs q) (live : List NodeId) :
    c.isComplete live = true ↔ (∃ q, Voted id vs q) ∧ ∀ q ∈ live, Voted id vs q := by
  unfold Collector.isComplete
  simp only [Bool.and_eq_true, decide_eq_true_eq, Votes.size_pos_iff, Votes.covers_iff, hlatest,
    exists_latest_iff]

/-! ## Invariant -/

/-- What a collection knows and where it stands, at any time. -/
structure Tracks (id : MessageId) (s : State) : Prop where
  id_eq : s.collector.votes.id = id
  /-- The votes are the latest of the replies that were taken. -/
  latest_eq : ∀ q, s.collector.votes.numbers.get? q = latest id s.taken q
  /-- It went on after every look but the last. -/
  not_before : ∀ before, before <+: s.looks → before ≠ s.looks → ¬Complete id before
  over_iff : s.stage = .over ↔ Complete id s.looks
  announced_eq : s.announced
    = if s.stage = .over then s.collector.votes.agreement.toList else []
  seen_le : s.collector.seenChanges ≤ s.peers.changes
  /-- Who was live at the last look still is, unless a change is still to be noted. -/
  live_eq : s.stage = .waiting → s.collector.seenChanges = s.peers.changes →
    ∀ look ∈ s.looks.getLast?, look.live = s.peers.liveIds

namespace Tracks

theorem init (id : MessageId) (peers : PeerTable) (early : List Proposal) :
    Tracks id (State.init id peers early) where
  id_eq := rfl
  latest_eq _ := rfl
  not_before _ hbefore hne := absurd (List.prefix_nil.1 hbefore) hne
  over_iff := ⟨nofun, fun h => absurd h not_complete_nil⟩
  announced_eq := rfl
  seen_le := Nat.le_refl _
  live_eq _ _ _ hlook := nomatch hlook

theorem reply (h : Tracks id s) (v : Proposal) : Tracks id (s.act (.reply v)) :=
  ⟨h.id_eq, h.latest_eq, h.not_before, h.over_iff, h.announced_eq, h.seen_le, h.live_eq⟩

theorem change (h : Tracks id s) (c : PeerTable.Change) : Tracks id (s.act (.change c)) := by
  rcases s.peers.changes_change_or_eq c with hpublished | heq
  -- What was published is not noted yet.
  · have hlt : s.collector.seenChanges < (s.peers.change c).changes := by
      rw [hpublished]
      exact Nat.lt_succ_of_le h.seen_le
    exact ⟨h.id_eq, h.latest_eq, h.not_before, h.over_iff, h.announced_eq, Nat.le_of_lt hlt,
      fun _ hseen => absurd hseen (Nat.ne_of_lt hlt)⟩
  · have hact : s.act (.change c) = s := by
      rw [State.act, heq]
    rw [hact]
    exact h

/-- A collection that waits is not over. -/
theorem not_complete_of_waiting (h : Tracks id s) (hstage : s.stage = .waiting) :
    ¬Complete id s.looks := by
  rw [← h.over_iff, hstage]
  exact nofun

theorem take (h : Tracks id s) : Tracks id s.take := by
  unfold State.take
  split
  · rename_i v rest hstage hinbox
    have hopen := h.not_complete_of_waiting hstage
    refine ⟨(Votes.id_record ..).trans h.id_eq, fun q => ?_, h.not_before,
      ⟨nofun, fun hcomplete => absurd hcomplete hopen⟩, ?_, h.seen_le, nofun⟩
    · rw [State.taken, show (Stage.checking (some v)).vote?.toList = [v] from rfl,
        latest_append_singleton, ← State.taken_of_waiting hstage, ← h.latest_eq, ← h.id_eq]
      exact Votes.get?_record ..
    · rw [if_neg nofun]
      exact h.announced_eq.trans (if_neg (by rw [hstage]; exact nofun))
  · exact h

theorem notice (h : Tracks id s) : Tracks id s.notice := by
  unfold State.notice
  split
  · rename_i hwaiting
    have hopen := h.not_complete_of_waiting hwaiting.1
    refine ⟨h.id_eq, fun q => ?_, h.not_before,
      ⟨nofun, fun hcomplete => absurd hcomplete hopen⟩, ?_, Nat.le_refl _, nofun⟩
    · rw [h.latest_eq, State.taken_of_waiting hwaiting.1, State.taken]
      exact congrArg (latest id · q) (List.append_nil _).symm
    · rw [if_neg nofun]
      exact h.announced_eq.trans (if_neg (by rw [hwaiting.1]; exact nofun))
  · exact h

/-- What is known after one more look. -/
theorem look_cases (h : Tracks id s) {vote? : Option Proposal}
    (hstage : s.stage = .checking vote?) :
    (∀ q, s.collector.votes.numbers.get? q
        = latest id (counted (s.looks ++ [Look.mk vote? s.peers.liveIds])) q) ∧
      ∀ before, before <+: s.looks ++ [Look.mk vote? s.peers.liveIds] →
        before ≠ s.looks ++ [Look.mk vote? s.peers.liveIds] → ¬Complete id before := by
  constructor
  · intro q
    rw [h.latest_eq, s.taken_of_checking hstage]
  · intro before hbefore hne
    by_cases heq : before = s.looks
    · rw [heq, ← h.over_iff, hstage]
      exact nofun
    · exact h.not_before before ((List.prefix_concat_iff.1 hbefore).resolve_left hne) heq

theorem look (h : Tracks id s) : Tracks id s.look := by
  unfold State.look
  split
  · rename_i vote? hstage
    obtain ⟨hlatest, hbefore⟩ := h.look_cases hstage
    have hcomplete := (isComplete_iff hlatest s.peers.liveIds).trans
      (complete_append_singleton ⟨vote?, s.peers.liveIds⟩).symm
    have hnone : s.announced = [] :=
      h.announced_eq.trans (if_neg (by rw [hstage]; exact nofun))
    split
    · rename_i hover
      refine ⟨h.id_eq, fun q => ?_, hbefore, ⟨fun _ => hcomplete.1 hover, fun _ => rfl⟩, ?_,
        h.seen_le, nofun⟩
      · exact (hlatest q).trans (congrArg (latest id · q) (List.append_nil _).symm)
      · rw [if_pos rfl, hnone, List.nil_append]
    · rename_i hopen
      refine ⟨h.id_eq, fun q => ?_, hbefore, ⟨nofun, fun hc => absurd (hcomplete.2 hc) hopen⟩, ?_,
        h.seen_le, fun _ _ look hlook => ?_⟩
      · exact (hlatest q).trans (congrArg (latest id · q) (List.append_nil _).symm)
      · rw [if_neg nofun, hnone]
      · rw [List.getLast?_concat, Option.mem_some_iff] at hlook
        rw [← hlook]
  · exact h

theorem act (h : Tracks id s) (e : Event) : Tracks id (s.act e) := by
  cases e with
  | reply v => exact h.reply v
  | change c => exact h.change c
  | take => exact h.take
  | notice => exact h.notice
  | look => exact h.look

theorem after (id : MessageId) (peers : PeerTable) (early : List Proposal) (events : List Event) :
    Tracks id (after id peers early events) := by
  induction events using List.reverseRecOn with
  | nil => exact init id peers early
  | append_singleton events e ih =>
    rw [after_append_singleton]
    exact ih.act e

end Tracks

/-! ## Replies that came in -/

theorem taken_inbox_take (s : State) :
    s.take.taken ++ s.take.collector.inbox = s.taken ++ s.collector.inbox := by
  unfold State.take
  split
  · rename_i v rest hstage hinbox
    rw [State.taken_of_waiting hstage, hinbox]
    exact List.append_assoc ..
  · rfl

theorem taken_notice (s : State) : s.notice.taken = s.taken := by
  unfold State.notice
  split
  · rename_i hwaiting
    rw [State.taken_of_waiting hwaiting.1]
    exact List.append_nil _
  · rfl

theorem taken_look (s : State) : s.look.taken = s.taken := by
  unfold State.look
  split
  · rename_i vote? hstage
    rw [s.taken_of_checking hstage s.peers.liveIds]
    split
    · exact List.append_nil _
    · exact List.append_nil _
  · rfl

theorem inbox_notice (s : State) : s.notice.collector.inbox = s.collector.inbox := by
  unfold State.notice
  split <;> rfl

theorem inbox_look (s : State) : s.look.collector.inbox = s.collector.inbox := by
  unfold State.look
  split
  · split <;> rfl
  · rfl

theorem taken_inbox_act (s : State) (e : Event) :
    (s.act e).taken ++ (s.act e).collector.inbox
      = s.taken ++ s.collector.inbox ++ e.reply?.toList := by
  cases e with
  | reply v => exact (List.append_assoc ..).symm
  | change c => exact (List.append_nil _).symm
  | take => exact (taken_inbox_take s).trans (List.append_nil _).symm
  | notice =>
    rw [State.act, taken_notice, inbox_notice]
    exact (List.append_nil _).symm
  | look =>
    rw [State.act, taken_look, inbox_look]
    exact (List.append_nil _).symm

/-- Replies are taken in the order in which they come in. -/
theorem taken_inbox (id : MessageId) (peers : PeerTable) (early : List Proposal)
    (events : List Event) :
    (after id peers early events).taken ++ (after id peers early events).collector.inbox
      = arrived early events := by
  induction events using List.reverseRecOn with
  | nil => exact (List.append_nil _).symm
  | append_singleton events e ih =>
    rw [after_append_singleton, taken_inbox_act, ih, arrived, arrived, List.filterMap_append,
      List.append_assoc]
    cases h : e.reply? <;> simp [h]

/-! ## The decision -/

/-- The collection has announced one agreement. It is on the largest of the latest replies, in
    whatever order the votes are looked at, and not below that of anybody who was live at the last
    look. -/
structure Announces (id : MessageId) (s : State) (a : Agreement) : Prop where
  announced_eq : s.announced = [a]
  largest : Largest id (counted s.looks) a
  in_any_order : ∀ votes, votes.Perm s.collector.votes.numbers.entries →
    Votes.winner votes = some (a.voter, a.number)
  live_le : ∀ look ∈ s.looks.getLast?, ∀ q ∈ look.live,
    ∃ n, latest id (counted s.looks) q = some n ∧ n ≤ a.number

/-- The collection has nothing to handle. -/
structure State.AtRest (s : State) : Prop where
  stage_eq : s.stage = .waiting
  inbox_eq : s.collector.inbox = []
  seen_eq : s.collector.seenChanges = s.peers.changes

/-- When a collection announces, and what, if these replies have come in. -/
structure Decides (id : MessageId) (replies : List Proposal) (s : State) : Prop where
  taken_inbox : s.taken ++ s.collector.inbox = replies
  not_before : ∀ before, before <+: s.looks → before ≠ s.looks → ¬Complete id before
  over_iff : s.stage = .over ↔ Complete id s.looks
  silent : s.stage ≠ .over → s.announced = []
  announces : s.stage = .over → ∃ a, Announces id s a
  /-- It does not wait on when no vote is missing. -/
  missing : s.AtRest →
    ¬((∃ q, Voted id replies q) ∧ ∀ q ∈ s.peers.liveIds, Voted id replies q)

/-- Everybody who replied was live at the last look. -/
def State.HasLive (id : MessageId) (replies : List Proposal) (s : State) : Prop :=
  ∀ v ∈ repliesFor id replies, ∃ look ∈ s.looks.getLast?, v.voter ∈ look.live

namespace Tracks

theorem announces (h : Tracks id s) (hover : s.stage = .over) : ∃ a, Announces id s a := by
  obtain ⟨⟨q, hq⟩, hlive⟩ := h.over_iff.1 hover
  have hlatest : ∀ q, s.collector.votes.numbers.get? q
      = latest s.collector.votes.id (counted s.looks) q := by
    rw [h.id_eq, ← State.taken_of_over hover]
    exact h.latest_eq
  obtain ⟨n, hn⟩ := exists_latest_iff.2 hq
  have hvoted : 0 < s.collector.votes.size :=
    Votes.size_pos_of_get? ((hlatest q).trans (by rw [h.id_eq]; exact hn))
  obtain ⟨a, ha⟩ := Option.ne_none_iff_exists'.1 (Votes.agreement_ne_none hvoted)
  have hlargest : Largest id (counted s.looks) a := by
    rw [← h.id_eq]
    exact largest_of_agreement hlatest ha
  refine ⟨a, ?_, hlargest, fun votes hperm => ?_, fun look hlook q hq => ?_⟩
  · rw [h.announced_eq, if_pos hover, ha]
    rfl
  · obtain ⟨w, hw, rfl⟩ := Option.map_eq_some_iff.1 ha
    exact (Votes.winner_eq_of_perm hperm).trans hw
  · obtain ⟨n, hn⟩ := exists_latest_iff.2 (hlive look hlook q hq)
    exact ⟨n, hn, hlargest.number_le hn⟩

/-- The replies that were taken are all that came in, and at the last look the same members were
    live as now. -/
theorem missing (h : Tracks id s) (hrest : s.AtRest) :
    ¬((∃ q, Voted id s.taken q) ∧ ∀ q ∈ s.peers.liveIds, Voted id s.taken q) := by
  rintro ⟨hvoted, hall⟩
  rw [State.taken_of_waiting hrest.stage_eq] at hvoted hall
  refine h.not_complete_of_waiting hrest.stage_eq ⟨hvoted, fun look hlook q hq => hall q ?_⟩
  rw [← h.live_eq hrest.stage_eq hrest.seen_eq look hlook]
  exact hq

/-- Everything announced follows from the latest replies that were counted. -/
theorem announced_eq_of_latest {s' : State} (h : Tracks id s) (h' : Tracks id s')
    (hover : s.stage = .over) (hover' : s'.stage = .over)
    (hsame : ∀ q, latest id (counted s.looks) q = latest id (counted s'.looks) q) :
    s.announced = s'.announced := by
  obtain ⟨a, ha⟩ := h.announces hover
  obtain ⟨a', ha'⟩ := h'.announces hover'
  rw [ha.announced_eq, ha'.announced_eq, ha.largest.unique ha'.largest hsame]

/-- If everybody who replied was live at the last look, and replied once, every reply was
    counted. -/
theorem repliesFor_counted {replies : List Proposal} (h : Tracks id s) (hover : s.stage = .over)
    (hreplies : s.taken ++ s.collector.inbox = replies) (honce : OneEach id replies)
    (hlive : s.HasLive id replies) : repliesFor id (counted s.looks) = repliesFor id replies := by
  rw [State.taken_of_over hover] at hreplies
  subst hreplies
  refine (repliesFor_append_of_voted honce fun v hv => ?_).symm
  obtain ⟨look, hlook, hvoter⟩ := hlive v hv
  exact (h.over_iff.1 hover).2 look hlook v.voter hvoter

end Tracks

/-- Two collections that are over, with the replies that have come in to each, announce the same if
    processes replied once and the same replies were looked at before the decision, in whatever
    order. That the same replies came in is enough if all who replied were live at the last look of
    either collection, and not in general: a reply of anybody else may come too late to be looked
    at. -/
structure SameDecision (id : MessageId) (replies replies' : List Proposal) (s s' : State) :
    Prop where
  of_counted : OneEach id (counted s.looks) →
    (repliesFor id (counted s.looks)).Perm (repliesFor id (counted s'.looks)) →
    s.announced = s'.announced
  of_arrived : OneEach id replies → (repliesFor id replies).Perm (repliesFor id replies') →
    s.HasLive id replies → s'.HasLive id replies' → s.announced = s'.announced

theorem sameDecision {peers peers' : PeerTable} {early early' : List Proposal}
    {events events' : List Event} (hover : (after id peers early events).stage = .over)
    (hover' : (after id peers' early' events').stage = .over) :
    SameDecision id (arrived early events) (arrived early' events')
      (after id peers early events) (after id peers' early' events') := by
  have h := Tracks.after id peers early events
  have h' := Tracks.after id peers' early' events'
  refine ⟨fun honce hperm => ?_, fun honce hperm hlive hlive' => ?_⟩
  · exact h.announced_eq_of_latest h' hover hover' (latest_of_perm honce hperm)
  -- All that came in was counted.
  · have hall := h.repliesFor_counted hover (taken_inbox ..) honce hlive
    have hall' := h'.repliesFor_counted hover' (taken_inbox ..) (honce.of_perm hperm) hlive'
    have honce' : OneEach id (counted (after id peers early events).looks) := by
      unfold OneEach
      rw [hall]
      exact honce
    exact h.announced_eq_of_latest h' hover hover'
      (latest_of_perm honce' (by rw [hall, hall']; exact hperm))

/-- A collection announces at most once, after the first reply or change it handles with which there
    is a vote and everybody who is live then has voted; it does not wait on when that is so. It
    announces the largest of the latest numbers that processes replied with by then, and of equal
    ones that of the process which comes last. With one reply from each process, the same replies
    come to the same in any order if they are all looked at before the decision, and they are if all
    who replied are live then. -/
theorem decides_once (id : MessageId) (peers : PeerTable) (early : List Proposal)
    (events : List Event) :
    Decides id (arrived early events) (after id peers early events) ∧
      ∀ peers' early' events',
        (after id peers early events).stage = .over →
        (after id peers' early' events').stage = .over →
        SameDecision id (arrived early events) (arrived early' events')
          (after id peers early events) (after id peers' early' events') := by
  have h := Tracks.after id peers early events
  have htaken := taken_inbox id peers early events
  refine ⟨⟨htaken, h.not_before, h.over_iff, fun hopen => ?_, h.announces, fun hrest => ?_⟩,
    fun _ _ _ hover hover' => sameDecision hover hover'⟩
  · exact h.announced_eq.trans (if_neg hopen)
  -- With nothing to handle, all that came in was taken.
  · rw [hrest.inbox_eq, List.append_nil] at htaken
    rw [← htaken]
    exact h.missing hrest

/-- A group of three. -/
def threePeers : PeerTable :=
  [⟨"a", .v4 .unspecified 1⟩, ⟨"b", .v4 .unspecified 2⟩, ⟨"c", .v4 .unspecified 3⟩].foldl
    (fun t node => t.add node 4) PeerTable.empty

/-- Two of them reply, and the third leaves. -/
def leavingEvents : List Event :=
  [.reply ⟨"b", ⟨1⟩, 3⟩, .take, .look, .reply ⟨"a", ⟨1⟩, 2⟩, .take, .look, .change (.remove "c"),
    .notice, .look]

/-- The same replies in the other order, after the third has left. -/
def leftEvents : List Event :=
  [.change (.remove "c"), .notice, .look, .reply ⟨"a", ⟨1⟩, 2⟩, .reply ⟨"b", ⟨1⟩, 3⟩, .take, .look,
    .take, .look]

/-- It is announced when the last who has not voted leaves, and then in another order. -/
theorem decides_once_of_leaving :
    (after ⟨1⟩ threePeers [] leavingEvents).announced = [⟨"b", ⟨1⟩, 3⟩] ∧
      (after ⟨1⟩ threePeers [] leavingEvents).announced
        = (after ⟨1⟩ threePeers [] leftEvents).announced := by
  have hover : (after ⟨1⟩ threePeers [] leavingEvents).stage = .over := by decide +kernel
  have hover' : (after ⟨1⟩ threePeers [] leftEvents).stage = .over := by decide +kernel
  refine ⟨by decide +kernel,
    ((decides_once ⟨1⟩ threePeers [] leavingEvents).2 threePeers [] leftEvents
      hover hover').of_counted ?_ (by decide +kernel)⟩
  unfold OneEach
  decide +kernel

/-- A group of one. -/
def onePeer : PeerTable := PeerTable.empty.add ⟨"a", .v4 .unspecified 1⟩ 4

/-- Somebody who is not in the group replies before its only member does. -/
def outsiderFirst : List Event :=
  [.reply ⟨"g", ⟨1⟩, 5⟩, .take, .look, .reply ⟨"a", ⟨1⟩, 1⟩, .take, .look]

/-- The same replies in the other order. -/
def outsiderLast : List Event :=
  [.reply ⟨"a", ⟨1⟩, 1⟩, .take, .look, .reply ⟨"g", ⟨1⟩, 5⟩, .take, .look]

/-- That the same replies come in, one from each process, is not enough for the same decision. A
    collection does not wait for processes that are not live. -/
theorem arrival_order_matters : ¬∀ id peers (events events' : List Event),
    (after id peers [] events).stage = .over → (after id peers [] events').stage = .over →
      OneEach id (arrived [] events) →
      (repliesFor id (arrived [] events)).Perm (repliesFor id (arrived [] events')) →
      (after id peers [] events).announced = (after id peers [] events').announced := by
  intro h
  have hfirst : (after ⟨1⟩ onePeer [] outsiderFirst).announced = [⟨"g", ⟨1⟩, 5⟩] := by
    decide +kernel
  have hlast : (after ⟨1⟩ onePeer [] outsiderLast).announced = [⟨"a", ⟨1⟩, 1⟩] := by
    decide +kernel
  have honce : OneEach ⟨1⟩ (arrived [] outsiderFirst) := by
    unfold OneEach
    decide +kernel
  have hsame := h ⟨1⟩ onePeer outsiderFirst outsiderLast (by decide +kernel) (by decide +kernel)
    honce (by decide +kernel)
  rw [hfirst, hlast] at hsame
  exact absurd hsame (by decide)

end AgreedOrder.Collecting
