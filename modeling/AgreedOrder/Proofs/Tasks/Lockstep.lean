/-
  AgreedOrder.Proofs.Tasks.Lockstep

  Two members that order messages alike go on alike. What a task of one does,
  the same task of the other can do, once lines were written out so that there
  is room in the queue it needs.

    * `dispatch` — what the dispatcher does next, unless it waits for room.
    * `Like` — states that agree in all but how far the dispatcher is.
    * `Like.other` — a step of another task.
    * `Lockstep.dispatch` — a step of the dispatcher, where both are as far.
    * `Lockstep.step` — a step of any task.
-/

import AgreedOrder.Proofs.Tasks.Twin

namespace AgreedOrder.Tasks

open Relation
open Member (Twin)

variable {apart : MessageId → Prop} {s s' t t' : State}

/-! ## The dispatcher -/

/-- What the dispatcher does next. It does nothing while it waits for a frame or for room. An
    envelope that has arrived is passed on to the targets. -/
def dispatch (s : State) (targets : List NodeId) : Option State :=
  match s.handling with
  | .idle =>
    match s.inbound with
    | [] => none
    | frame :: rest =>
      some { s with
        member := (begin s.member frame).2, inbound := rest
        handling := (begin s.member frame).1 }
  | .arrived f body =>
    some { s.setPeers (s.member.peers.countForAll (s.member.frameLine .reliable body)) with
      handling := .passingOn f (s.member.frameLine .reliable body) targets }
  | .passingOn f _ [] => some { s with handling := .routing f }
  | .passingOn f line (q :: rest) =>
    if (s.member.peers.enqueue q line).1 = .full then none
    else some { s.setPeers (s.member.peers.enqueue q line).2 with
      handling := .passingOn f line rest }
  | .routing f =>
    some { s with member := (route s.member f).2, handling := (route s.member f).1 }
  | .numbered sender v => some (s.release (.replying sender v))
  | .replying sender v =>
    some { s with
      member := (reply s.member sender v).2, handling := (reply s.member sender v).1 }
  | .sending target line =>
    if (s.member.peers.enqueue target line).1 = .full then none
    else some { s.setPeers (s.member.peers.enqueue target line).2 with handling := .idle }
  | .noted => some (s.release .idle)

/-- What the dispatcher can do next: it passes an envelope on in any order. -/
def Dispatches (s t : State) : Prop :=
  ∃ targets : List NodeId, targets.Perm s.member.peers.liveIds ∧ dispatch s targets = some t

/-! ## Room -/

/-- Lines are written out until there is room in a queue. -/
theorem steps_makeRoom (hroomy : s.member.peers.Roomy) (q : NodeId) (line : String) :
    ∃ peers, ReflTransGen Step s (s.setPeers peers) ∧ s.member.peers.SameGroup peers ∧
      (peers.enqueue q line).1 ≠ .full := by
  induction hn : (s.member.peers.waiting q).length generalizing s with
  | zero =>
    refine ⟨s.member.peers, .refl, PeerTable.sameGroup_refl hroomy, fun hfull => ?_⟩
    exact PeerTable.waiting_ne_nil_of_full hroomy hfull (List.eq_nil_of_length_eq_zero hn)
  | succ n ih =>
    have hwaiting : s.member.peers.waiting q ≠ [] := List.ne_nil_of_length_eq_add_one hn
    obtain ⟨oldest, peers, htaken⟩ := PeerTable.exists_takeLine hwaiting
    obtain ⟨rest, hline, -, -, hrest, -⟩ := PeerTable.takeLine_eq_line htaken
    have hwritten := PeerTable.sameGroup_takeLine hroomy q
    have hstep := Step.write (s := s) (q := q)
    rw [htaken] at hwritten hstep
    have hlength : (peers.waiting q).length = n := by
      rw [hrest, if_pos rfl]
      rw [hline] at hn
      exact Nat.succ.inj hn
    obtain ⟨peers', hsteps, hgroup, hroom⟩ := ih (s := s.setPeers peers) hwritten.roomy' hlength
    exact ⟨peers', .head hstep hsteps, hwritten.trans hgroup, hroom⟩

/-! ## States -/

/-- States that agree in all but how far the dispatcher is. -/
structure Like (apart : MessageId → Prop) (s s' : State) : Prop where
  member : Twin apart s.member s'.member
  inbound : s'.inbound = s.inbound
  sendings : s'.sendings = s.sendings
  watching : s'.watching = s.watching

theorem Like.symm (h : Like apart s s') : Like apart s' s :=
  ⟨h.member.symm, h.inbound.symm, h.sendings.symm, h.watching.symm⟩

/-- Changes of the tables that leave the groups the same. -/
theorem Like.setPeers (h : Like apart s s') {peers peers' : PeerTable}
    (hgroup : peers.SameGroup peers') : Like apart (s.setPeers peers) (s'.setPeers peers') :=
  ⟨h.member.setPeers hgroup, h.inbound, h.sendings, h.watching⟩

theorem Like.setHandling (h : Like apart s s') (handling : Handling) :
    Like apart s { s' with handling } :=
  ⟨h.member, h.inbound, h.sendings, h.watching⟩

/-- A state and what it has become by writing lines out are alike to the same. -/
theorem Like.trans_sameGroup (h : Like apart s s') {peers : PeerTable}
    (hgroup : s'.member.peers.SameGroup peers) : Like apart s (s'.setPeers peers) :=
  h.setPeers (h.member.group.trans hgroup)

theorem Like.conclude (h : Like apart s s') (before after : List Collector) (floodId : MessageId)
    (x : Bool × Collector) :
    Like apart (s.conclude before after floodId x) (s'.conclude before after floodId x) := by
  obtain ⟨_ | _, c⟩ := x
  · exact ⟨h.member.setCollectors _, h.inbound, h.sendings, h.watching⟩
  · exact ⟨h.member.setCollectors _, h.inbound, congrArg (· ++ _) h.sendings, h.watching⟩

theorem handling_conclude (s : State) (before after : List Collector) (floodId : MessageId)
    (x : Bool × Collector) : (s.conclude before after floodId x).handling = s.handling := by
  obtain ⟨_ | _, c⟩ := x <;> rfl

/-- Of two states alike, one has come to another state by some steps, without the dispatcher. -/
def Follows (apart : MessageId → Prop) (t s' : State) : Prop :=
  ∃ t', ReflTransGen Step s' t' ∧ Like apart t t' ∧ t'.handling = s'.handling

theorem Follows.single (next : Step s' t') (h : Like apart t t')
    (handling : t'.handling = s'.handling) : Follows apart t s' :=
  ⟨t', .single next, h, handling⟩

/-- A multicast of the member's own goes on to the next queue, once there is room. -/
theorem Like.enqueue (h : Like apart s s') {line : String} {q : NodeId} {rest : List NodeId}
    {before after : List Sending}
    (sending : s.sendings = before ++ .underWay line (q :: rest) :: after) :
    Follows apart { s.setPeers (s.member.peers.enqueue q line).2 with
      sendings := before ++ .underWay line rest :: after } s' := by
  obtain ⟨peers, hsteps, hgroup, hroom⟩ := steps_makeRoom h.member.group.roomy' q line
  have hdrained := h.trans_sameGroup hgroup
  have hstep := Step.enqueue (hdrained.sendings.trans sending) hroom
  exact ⟨_, hsteps.tail hstep, ⟨h.member.setPeers (hdrained.member.group.enqueue q line),
    h.inbound, rfl, h.watching⟩, rfl⟩

/-- What another task does in one state, it can do in the other. -/
theorem Like.other (h : Like apart s s') (next : Step s t) :
    Dispatches s t ∨ (t.handling = s.handling ∧ Follows apart t s') := by
  have hgroup := h.member.group
  have hown (hd : dispatch s s.member.peers.liveIds = some t) : Dispatches s t :=
    ⟨_, .refl _, hd⟩
  cases next with
  | take idle next => exact .inl (hown (by unfold dispatch; rw [idle, next]))
  | passOn handling order => exact .inl ⟨_, order, by unfold dispatch; rw [handling]⟩
  | passTo handling room => exact .inl (hown (by unfold dispatch; rw [handling]; exact if_neg room))
  | passed handling => exact .inl (hown (by unfold dispatch; rw [handling]))
  | route handling => exact .inl (hown (by unfold dispatch; rw [handling]))
  | releaseNumbered handling => exact .inl (hown (by unfold dispatch; rw [handling]))
  | reply handling => exact .inl (hown (by unfold dispatch; rw [handling]))
  | send handling room => exact .inl (hown (by unfold dispatch; rw [handling]; exact if_neg room))
  | releaseNoted handling => exact .inl (hown (by unfold dispatch; rw [handling]))
  | @arrive line watched =>
    have hstep := @Step.arrive s' line (h.watching.symm ▸ watched)
    exact .inr ⟨rfl, .single hstep
      ⟨h.member, congrArg (· ++ _) h.inbound, h.sendings, h.watching⟩ rfl⟩
  | @submit id floodId message =>
    have hstep := @Step.submit s' id floodId message
    have henvelope : s'.member.askEnvelope id floodId message
        = s.member.askEnvelope id floodId message := by
      rw [Member.askEnvelope, Member.askEnvelope, h.member.alike.self]
    refine .inr ⟨rfl, .single hstep
      ⟨h.member.openCollector id, h.inbound, ?_, h.watching⟩ rfl⟩
    rw [henvelope, h.sendings]
  | @start f before after targets sending order =>
    have hstep := Step.start (h.sendings.trans sending) (hgroup.liveIds ▸ order)
    rw [h.member.frameLine] at hstep
    exact .inr ⟨rfl, .single hstep
      ⟨h.member.setPeers (hgroup.countForAll _), h.inbound, rfl, h.watching⟩ rfl⟩
  | enqueue sending room => exact .inr ⟨rfl, h.enqueue sending⟩
  | finish sending =>
    exact .inr ⟨rfl, .single (.finish (h.sendings.trans sending))
      ⟨h.member, h.inbound, rfl, h.watching⟩ rfl⟩
  | @count c before after v rest floodId collecting next =>
    have hstep := @Step.count s' c before after v rest floodId
      (h.member.alike.collectors.trans collecting) next
    rw [hgroup.liveIds] at hstep
    exact .inr ⟨handling_conclude .., .single hstep (h.conclude ..) (handling_conclude ..)⟩
  | @recount c before after floodId collecting changed =>
    have hstep := @Step.recount s' c before after floodId
      (h.member.alike.collectors.trans collecting) (hgroup.changes.symm ▸ changed)
    rw [hgroup.liveIds, hgroup.changes] at hstep
    exact .inr ⟨handling_conclude .., .single hstep (h.conclude ..) (handling_conclude ..)⟩
  | connect live =>
    obtain ⟨peers', live', hconnected⟩ := hgroup.markConnected live
    exact .inr ⟨rfl, .single (.connect live') (h.setPeers hconnected) rfl⟩
  | @write q =>
    exact .inr ⟨rfl, .single .write (h.setPeers (hgroup.takeLine q)) rfl⟩
  | @dropReader q =>
    exact .inr ⟨rfl, .single .dropReader (h.setPeers (hgroup.dropReader q)) rfl⟩
  | @eject q =>
    exact .inr ⟨rfl, .single .eject
      ⟨h.member.eject q, h.inbound, h.sendings, h.watching⟩ rfl⟩
  | subscribe watching =>
    have hstep := Step.subscribe (h.watching.trans watching)
    rw [hgroup.changes] at hstep
    exact .inr ⟨rfl, .single hstep
      ⟨h.member.setSeenChanges _, h.inbound, h.sendings, rfl⟩ rfl⟩
  | notice watching changed =>
    have hstep := Step.notice (h.watching.trans watching)
      (by rw [h.member.alike.seenChanges, hgroup.changes]; exact changed)
    rw [hgroup.changes] at hstep
    exact .inr ⟨rfl, .single hstep
      ⟨h.member.setSeenChanges _, h.inbound, h.sendings, rfl⟩ rfl⟩
  | releaseNoticed watching =>
    exact .inr ⟨rfl, .single (.releaseNoticed (h.watching.trans watching))
      ⟨h.member.release, h.inbound, h.sendings, rfl⟩ rfl⟩

/-! ## Lockstep -/

/-- States that agree, also in how far the dispatcher is. -/
structure Lockstep (apart : MessageId → Prop) (s s' : State) : Prop where
  like : Like apart s s'
  handling : s'.handling = s.handling

theorem lockstep_refl (h : s.member.peers.Roomy) : Lockstep apart s s :=
  ⟨⟨⟨Member.alike_refl s.member, PeerTable.sameGroup_refl h, fun _ _ => Iff.rfl⟩, rfl, rfl, rfl⟩,
    rfl⟩

/-- A line of the dispatcher's goes into a queue, once there is room. -/
theorem Lockstep.enqueue (h : Lockstep apart s s') (q : NodeId) (line : String)
    (handling : Handling)
    (step : ∀ {u : State}, u.handling = s.handling → (u.member.peers.enqueue q line).1 ≠ .full →
      Step u { u.setPeers (u.member.peers.enqueue q line).2 with handling }) :
    ∃ t', ReflTransGen Step s' t' ∧
      Lockstep apart { s.setPeers (s.member.peers.enqueue q line).2 with handling } t' := by
  obtain ⟨peers, hsteps, hgroup, hroom⟩ := steps_makeRoom h.like.member.group.roomy' q line
  have hdrained := h.like.trans_sameGroup hgroup
  exact ⟨_, hsteps.tail (step h.handling hroom), ⟨h.like.member.setPeers
    (hdrained.member.group.enqueue q line), h.like.inbound, h.like.sendings, h.like.watching⟩, rfl⟩

/-- What the dispatcher does in one state, it can do in the other, if it does not begin with a
    frame that carries one of the ids that are set apart. -/
theorem Lockstep.dispatch (h : Lockstep apart s s')
    (hclear : s.handling = .idle → ∀ frame, s.inbound = frame :: t.inbound → Clear apart frame)
    (hd : Dispatches s t) : ∃ t', ReflTransGen Step s' t' ∧ Lockstep apart t t' := by
  have hlike := h.like
  have hgroup := hlike.member.group
  obtain ⟨targets, order, hd⟩ := hd
  unfold Tasks.dispatch at hd
  cases hs : s.handling with
  | idle =>
    rw [hs] at hd
    cases hin : s.inbound with
    | nil =>
      rw [hin] at hd
      cases hd
    | cons frame rest =>
      rw [hin] at hd
      cases hd
      have hbegin := twin_begin hlike.member (hclear hs frame hin)
      exact ⟨_, .single (.take (h.handling.trans hs) (hlike.inbound.trans hin)),
        ⟨hbegin.2, rfl, hlike.sendings, hlike.watching⟩, hbegin.1⟩
  | arrived f body =>
    rw [hs] at hd
    cases hd
    have hstep := Step.passOn (h.handling.trans hs) (hgroup.liveIds ▸ order)
    rw [hlike.member.frameLine] at hstep
    exact ⟨_, .single hstep, ⟨hlike.member.setPeers (hgroup.countForAll _), hlike.inbound,
      hlike.sendings, hlike.watching⟩, rfl⟩
  | passingOn f line left =>
    rw [hs] at hd
    cases left with
    | nil =>
      cases hd
      exact ⟨_, .single (.passed (h.handling.trans hs)), ⟨hlike.member, hlike.inbound,
        hlike.sendings, hlike.watching⟩, rfl⟩
    | cons q rest =>
      dsimp only at hd
      split at hd
      · cases hd
      · cases hd
        exact h.enqueue q line _ fun hu hroom => .passTo (hu.trans hs) hroom
  | routing f =>
    rw [hs] at hd
    cases hd
    have hroute := twin_route hlike.member f
    exact ⟨_, .single (.route (h.handling.trans hs)), ⟨hroute.2, hlike.inbound,
      hlike.sendings, hlike.watching⟩, hroute.1⟩
  | numbered sender v =>
    rw [hs] at hd
    cases hd
    exact ⟨_, .single (.releaseNumbered (h.handling.trans hs)), ⟨hlike.member.release,
      hlike.inbound, hlike.sendings, hlike.watching⟩, rfl⟩
  | replying sender v =>
    rw [hs] at hd
    cases hd
    have hreply := twin_reply hlike.member sender v
    exact ⟨_, .single (.reply (h.handling.trans hs)), ⟨hreply.2, hlike.inbound,
      hlike.sendings, hlike.watching⟩, hreply.1⟩
  | sending target line =>
    rw [hs] at hd
    dsimp only at hd
    split at hd
    · cases hd
    · cases hd
      exact h.enqueue target line _ fun hu hroom => .send (hu.trans hs) hroom
  | noted =>
    rw [hs] at hd
    cases hd
    exact ⟨_, .single (.releaseNoted (h.handling.trans hs)), ⟨hlike.member.release,
      hlike.inbound, hlike.sendings, hlike.watching⟩, rfl⟩

theorem Lockstep.step (h : Lockstep apart s s')
    (hclear : ∀ frame, s.inbound = frame :: t.inbound → Clear apart frame) (next : Step s t) :
    ∃ t', ReflTransGen Step s' t' ∧ Lockstep apart t t' := by
  rcases h.like.other next with hd | ⟨handling, t', hsteps, hlike, handling'⟩
  · exact h.dispatch (fun _ => hclear) hd
  · exact ⟨t', hsteps, hlike, handling'.trans (h.handling.trans handling.symm)⟩

/-- Every queue of a member has room for a line, whatever its tasks do. -/
theorem Reachable.roomy {self : NodeId} {nodes : List Node} {capacity : Nat}
    (h : Reachable self nodes capacity s) : s.member.peers.Roomy := by
  induction h with
  | init => exact Member.roomy_init self nodes capacity
  | step _ next ih =>
    -- No id is set apart.
    have hself : Lockstep (fun _ => False) _ _ := lockstep_refl ih
    obtain ⟨_, -, hnext⟩ := hself.step (fun _ _ _ _ _ => id) next
    exact hnext.like.member.group.roomy

end AgreedOrder.Tasks
