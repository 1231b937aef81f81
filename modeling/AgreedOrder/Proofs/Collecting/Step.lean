/-
  AgreedOrder.Proofs.Collecting.Step

  One collection of votes among everything that can happen while it is going
  on. Replies are handed to it, and members come, get their links and leave at
  any time. It handles one reply or one note of a change at a time, looks
  afterwards who is live, and either waits for the next or is over. Between
  what it handles and its look the group may change again.

    * `State.act`, `after` — what can happen, and what it comes to.
    * `State.round`, `matches_round` — the steps in a round of `Collector.advance`.
-/

import AgreedOrder.Member.Background
import AgreedOrder.Proofs.PeerTable

namespace AgreedOrder

/-! ## Changes of the group -/

/-- A change of a table of members. -/
inductive PeerTable.Change where
  | add (node : Node) (capacity : Nat)
  | connect (q : NodeId)
  | remove (q : NodeId)

namespace PeerTable

/-- The table after a change. A link of somebody who is not a member changes nothing. -/
def change (t : PeerTable) : Change → PeerTable
  | .add node capacity => t.add node capacity
  | .connect q =>
    match t.markConnected q with
    | .ok t' => t'
    | .error _ => t
  | .remove q => (t.remove q).2

/-- A change is published, or leaves the table as it is. -/
theorem changes_change_or_eq (t : PeerTable) (c : Change) :
    (t.change c).changes = t.changes + 1 ∨ t.change c = t := by
  cases c with
  | add node capacity => exact Or.inl rfl
  | connect q =>
    rw [change, markConnected]
    cases t.peers.get? q with
    | none => exact Or.inr rfl
    | some peer => exact Or.inl rfl
  | remove q =>
    cases hlive : t.isLive q with
    | true => exact Or.inl (by rw [change, changes_remove, if_pos hlive])
    | false => exact Or.inr (remove_of_not_live hlive)

end PeerTable

namespace Collecting

/-! ## States -/

/-- Where a collection stands. -/
inductive Stage where
  | waiting
  /-- It has handled a reply, or a note of a change, and has not looked yet. -/
  | checking (vote? : Option Proposal)
  | over
  deriving DecidableEq

/-- The reply after which there was no look yet. -/
def Stage.vote? : Stage → Option Proposal
  | .checking vote? => vote?
  | _ => none

/-- A look after a reply, or after a note of a change: who was live then. -/
structure Look where
  vote? : Option Proposal
  live : List NodeId

/-- A collection with the members of the group, its looks and its announcements so far. -/
structure State where
  peers : PeerTable
  collector : Collector
  stage : Stage
  looks : List Look
  announced : List Agreement

/-- Something that happens to a collection or to the group, or something that the collection does:
    it takes the oldest reply, takes note that the group has changed, or looks whether it is
    over. -/
inductive Event where
  | reply (v : Proposal)
  | change (c : PeerTable.Change)
  | take
  | notice
  | look

namespace State

/-- A collection that begins, with the replies that were there before. -/
def init (id : MessageId) (peers : PeerTable) (early : List Proposal) : State :=
  { peers
    collector := ⟨Votes.init id, early, peers.changes⟩
    stage := .waiting
    looks := []
    announced := [] }

/-- Count the oldest reply. -/
def take (s : State) : State :=
  match s.stage, s.collector.inbox with
  | .waiting, v :: rest =>
    { s with
      collector := { s.collector with votes := s.collector.votes.record v, inbox := rest }
      stage := .checking (some v) }
  | _, _ => s

/-- Take note that the group has changed. -/
def notice (s : State) : State :=
  if s.stage = .waiting ∧ s.collector.seenChanges ≠ s.peers.changes then
    { s with
      collector := { s.collector with seenChanges := s.peers.changes }
      stage := .checking none }
  else s

/-- Look who is live. If all of them have voted, announce what the votes amount to. -/
def look (s : State) : State :=
  match s.stage with
  | .checking vote? =>
    if s.collector.isComplete s.peers.liveIds then
      { s with
        stage := .over
        looks := s.looks ++ [Look.mk vote? s.peers.liveIds]
        announced := s.announced ++ s.collector.votes.agreement.toList }
    else
      { s with
        stage := .waiting
        looks := s.looks ++ [Look.mk vote? s.peers.liveIds] }
  | _ => s

/-- What an event comes to. A collection that is over does nothing any more. -/
def act (s : State) : Event → State
  | .reply v => { s with collector := { s.collector with inbox := s.collector.inbox ++ [v] } }
  | .change c => { s with peers := s.peers.change c }
  | .take => s.take
  | .notice => s.notice
  | .look => s.look

def run (s : State) (events : List Event) : State := events.foldl act s

theorem run_append (s : State) (events events' : List Event) :
    s.run (events ++ events') = (s.run events).run events' := List.foldl_append ..

end State

/-- What a collection comes to from a group, the replies that are there before it begins, and some
    events. -/
def after (id : MessageId) (peers : PeerTable) (early : List Proposal) (events : List Event) :
    State :=
  (State.init id peers early).run events

theorem after_append_singleton (id : MessageId) (peers : PeerTable) (early : List Proposal)
    (events : List Event) (e : Event) :
    after id peers early (events ++ [e]) = (after id peers early events).act e :=
  State.run_append ..

/-- The reply that an event hands over. -/
def Event.reply? : Event → Option Proposal
  | .reply v => some v
  | _ => none

/-- The replies that have come in, in their order. -/
def arrived (early : List Proposal) (events : List Event) : List Proposal :=
  early ++ events.filterMap Event.reply?

/-! ## Rounds -/

namespace State

variable {s s' : State}

/-- Take and look for each of some replies. -/
def counting (vs : List Proposal) : List Event := vs.flatMap fun _ => [.take, .look]

/-- Handle what has come in: the replies, and then the changes of the group. -/
def round (s : State) : List Event := counting s.collector.inbox ++ [.notice, .look]

theorem take_of_over (h : s.stage = .over) : s.take = s := by
  unfold take
  rw [h]

theorem notice_of_over (h : s.stage = .over) : s.notice = s := by
  unfold notice
  rw [h, if_neg fun hw => nomatch hw.1]

theorem look_of_over (h : s.stage = .over) : s.look = s := by
  unfold look
  rw [h]

theorem run_counting_of_over (h : s.stage = .over) (vs : List Proposal) :
    s.run (counting vs) = s := by
  induction vs with
  | nil => rfl
  | cons v rest ih =>
    have hcons : s.run (counting (v :: rest)) = s.take.look.run (counting rest) := rfl
    rw [hcons, take_of_over h, look_of_over h, ih]

/-- A state in which the collection has come to a result: whether it is over, and what it
    knows. Replies may be left over by one that is over. -/
structure Matches (r : Bool × Collector) (s s' : State) : Prop where
  peers_eq : s'.peers = s.peers
  stage_eq : s'.stage = if r.1 then .over else .waiting
  votes_eq : s'.collector.votes = r.2.votes
  announced_eq : s'.announced
    = if r.1 then s.announced ++ r.2.votes.agreement.toList else s.announced
  seen_eq : r.1 = false → s'.collector.seenChanges = r.2.seenChanges
  inbox_eq : r.1 = false → s'.collector.inbox = []

/-- Replies are counted one by one as they are in a round. -/
theorem matches_counting {c : Collector} (hstage : s.stage = .waiting)
    (hvotes : c.votes = s.collector.votes) (hseen : c.seenChanges = s.collector.seenChanges)
    {vs : List Proposal} (hinbox : s.collector.inbox = vs) :
    Matches (Collector.count s.peers.liveIds vs c) s (s.run (counting vs)) := by
  induction vs generalizing s c with
  | nil => exact ⟨rfl, hstage, hvotes.symm, rfl, fun _ => hseen.symm, fun _ => hinbox⟩
  | cons v rest ih =>
    have hcons : s.run (counting (v :: rest)) = s.take.look.run (counting rest) := rfl
    have htake : s.take =
        { s with
          collector := { s.collector with votes := s.collector.votes.record v, inbox := rest }
          stage := .checking (some v) } := by
      unfold take
      rw [hstage, hinbox]
    rw [hcons, htake, Collector.count, hvotes]
    unfold look Collector.isComplete
    dsimp only
    split
    · rw [run_counting_of_over rfl]
      exact ⟨rfl, rfl, rfl, rfl, nofun, nofun⟩
    · obtain ⟨hp, hs, hv, ha, hn, hi⟩ := ih (c := { c with votes := s.collector.votes.record v })
        (s := { s with
          collector := { s.collector with votes := s.collector.votes.record v, inbox := rest }
          stage := .waiting
          looks := s.looks ++ [Look.mk (some v) s.peers.liveIds] }) rfl rfl hseen rfl
      exact ⟨hp, hs, hv, ha, hn, hi⟩

/-- What is left of a round when the replies are counted. -/
theorem matches_notice {c : Collector} (h : Matches (false, c) s s') :
    Matches
      (if c.seenChanges = s.peers.changes then (false, { c with inbox := [] })
        else ({ c with inbox := [], seenChanges := s.peers.changes }.isComplete s.peers.liveIds,
          { c with inbox := [], seenChanges := s.peers.changes }))
      s s'.notice.look := by
  obtain ⟨hpeers, hstage, hvotes, hannounced, hseen, hinbox⟩ := h
  dsimp only at *
  rw [if_neg nofun] at hstage hannounced
  rw [notice, hstage, hpeers, hseen rfl]
  by_cases hchanged : c.seenChanges = s.peers.changes
  -- A collection that has nothing to take note of does not look again.
  · rw [if_pos hchanged, if_neg fun hw => hw.2 hchanged, look, hstage]
    exact ⟨hpeers, hstage, hvotes, hannounced, hseen, hinbox⟩
  · rw [if_neg hchanged, if_pos ⟨rfl, hchanged⟩]
    unfold look Collector.isComplete
    dsimp only
    rw [hvotes]
    split
    · rename_i hcomplete
      rw [hcomplete]
      exact ⟨rfl, rfl, rfl, congrArg (· ++ _) hannounced, nofun, nofun⟩
    · rename_i hopen
      rw [Bool.eq_false_iff.2 hopen]
      exact ⟨rfl, rfl, rfl, hannounced, fun _ => rfl, fun _ => hinbox rfl⟩

/-- The steps of a round come to what `Collector.advance` does at once. -/
theorem matches_round (h : s.stage = .waiting) :
    Matches (s.collector.advance s.peers.liveIds s.peers.changes) s (s.run s.round) := by
  have hcounted := matches_counting (c := s.collector) h rfl rfl rfl
  have hround : s.run s.round = (s.run (counting s.collector.inbox)).notice.look := run_append ..
  rw [hround]
  unfold Collector.advance
  dsimp only
  cases hr : (Collector.count s.peers.liveIds s.collector.inbox s.collector).1 with
  | true =>
    have hover := hcounted.stage_eq
    rw [hr, if_pos rfl] at hover
    rw [if_pos rfl, notice_of_over hover, look_of_over hover]
    refine ⟨hcounted.peers_eq, hover, hcounted.votes_eq, ?_, nofun, nofun⟩
    rw [hcounted.announced_eq, hr]
  | false =>
    rw [if_neg nofun]
    exact matches_notice (hr ▸ hcounted)

end State

end Collecting

end AgreedOrder
