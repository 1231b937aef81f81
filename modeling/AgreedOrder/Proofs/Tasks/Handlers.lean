/-
  AgreedOrder.Proofs.Tasks.Handlers

  A frame that is handled in one go, a message that is sent in one go, and a
  look at the group are sequences of steps of a member's tasks, as long as no
  queue is full.

    * `steps_receive` — the dispatcher handles a frame.
    * `steps_submit` — a message of the member's own.
    * `steps_watchGroup` — the task that watches the group.
-/

import AgreedOrder.Proofs.Protocol.Handlers
import AgreedOrder.Proofs.Tasks.Step
import Mathlib.Logic.Relation

namespace AgreedOrder

open Json

/-- To take an envelope in changes nothing but what was seen flooded. -/
theorem Member.alike_takeIn {m m' : Member} {frame : Frame} {f : Flood}
    (h : m.takeIn frame = some (f, m')) : Alike m m' := by
  obtain ⟨-, -, rfl⟩ := takeIn_eq_some h
  exact ⟨rfl, rfl, rfl, rfl, rfl, rfl, rfl, fun _ => rfl⟩

namespace Tasks

open Relation

variable {s : State} {m : Member}

/-! ## Queues -/

/-- An envelope is passed on to one member after the other. -/
theorem steps_passOn {f : Flood} {line : String} {targets : List NodeId}
    (handling : s.handling = .passingOn f line targets)
    (h : Member.enqueueAll line targets s.member = (.done, m)) :
    ReflTransGen Step s { s with member := m, handling := .routing f } := by
  induction targets generalizing s with
  | nil =>
    obtain rfl : s.member = m := (Prod.mk.inj h).2
    exact .single (.passed handling)
  | cons q rest ih =>
    obtain ⟨hroom, hrest⟩ := Member.enqueueAll_cons_eq_done h
    exact .head (.passTo handling hroom) (ih rfl hrest)

/-- A line of the member's own goes into one queue after the other. -/
theorem steps_enqueue {line : String} {targets : List NodeId} {before after : List Sending}
    (sending : s.sendings = before ++ .underWay line targets :: after)
    (h : Member.enqueueAll line targets s.member = (.done, m)) :
    ReflTransGen Step s { s with member := m, sendings := before ++ after } := by
  induction targets generalizing s with
  | nil =>
    obtain rfl : s.member = m := (Prod.mk.inj h).2
    exact .single (.finish sending)
  | cons q rest ih =>
    obtain ⟨hroom, hrest⟩ := Member.enqueueAll_cons_eq_done h
    exact .head (.enqueue sending hroom) (ih rfl hrest)

/-! ## Handlers -/

/-- A proposal is sent, or it cannot be. -/
theorem steps_reply {sender : NodeId} {v : Proposal} (running : s.member.stopped = false)
    (handling : s.handling = .replying sender v)
    (h : (s.member.unicast sender .proposal (Record.encode v)).1 ≠ .blocked) :
    ReflTransGen Step s { s with
      member := (s.member.unicast sender .proposal (Record.encode v)).2, handling := .idle } := by
  have hstep := Step.reply handling
  unfold reply at hstep
  unfold Member.unicast at h ⊢
  dsimp only at hstep h ⊢
  cases hcount : s.member.peers.countFor sender
      (s.member.frameLine .proposal (Record.encode v)) with
  | error e =>
    rw [hcount] at hstep
    exact .single hstep
  | ok peers =>
    rw [hcount] at hstep h
    dsimp only at hstep h ⊢
    have hsend := Step.send (s := { s with
      member := { s.member with peers }
      handling := .sending sender (s.member.frameLine .proposal (Record.encode v)) })
      rfl
    rcases peers.enqueue_cases sender (s.member.frameLine .proposal (Record.encode v)) with
      ⟨b, -, -, heq⟩ | ⟨o, ho, heq, -⟩
    · rw [heq] at hsend ⊢
      exact .tail (.single hstep) (hsend (by simp))
    · rw [heq] at hsend h ⊢
      cases o with
      | queued => exact absurd rfl ho
      | full =>
        refine absurd ?_ h
        show Member.whenFull _ = _
        rw [Member.whenFull, show ({ s.member with peers } : Member).stopped = false from running]
        rfl
      | closed => exact .tail (.single hstep) (hsend (by simp))

theorem steps_route {f : Flood} (running : s.member.stopped = false)
    (handling : s.handling = .routing f) (h : (s.member.onFlood f).1 ≠ .blocked) :
    ReflTransGen Step s { s with member := (s.member.onFlood f).2, handling := .idle } := by
  have hstep := Step.route handling
  unfold route at hstep
  unfold Member.onFlood at h ⊢
  split
  -- An ask is given a number, then messages are released, and then the proposal is sent.
  · rename_i hpath
    rw [hpath] at hstep h
    dsimp only at hstep h
    cases hask : (Record.decode? f.body : Option Ask) with
    | none =>
      rw [hask] at hstep
      unfold Member.onAsk
      rw [hask]
      exact .single hstep
    | some ask =>
      rw [hask] at hstep
      obtain ⟨hmember, hsent⟩ := Member.onAsk_outcome hask s.member
      have hreply := steps_reply (s := { s with
        member := (s.member.answer ask).2
        handling := .replying ask.sender (s.member.answer ask).1 }) running rfl (hsent h)
      rw [hmember]
      exact .head hstep (.head (Step.releaseNumbered rfl) hreply)
  · rename_i hpath
    rw [hpath] at hstep
    dsimp only at hstep
    unfold Member.onAgreement
    cases ha : (Record.decode? f.body : Option Agreement) with
    | none =>
      rw [ha] at hstep
      exact .single hstep
    | some a =>
      rw [ha] at hstep
      exact .head hstep (.single (Step.releaseNoted rfl))
  · rename_i hask hagreement
    split at hstep
    · rename_i hpath
      exact absurd hpath hask
    · rename_i hpath
      exact absurd hpath hagreement
    · exact .single hstep

/-- An envelope of another member is passed on, and handled after that. -/
theorem steps_arrived {f : Flood} {body : Bytes} (running : s.member.stopped = false)
    (handling : s.handling = .arrived f body)
    (hsent : (s.member.multicast .reliable body).1 ≠ .blocked)
    (h : ((s.member.multicast .reliable body).2.onFlood f).1 ≠ .blocked) :
    ReflTransGen Step s { s with
      member := ((s.member.multicast .reliable body).2.onFlood f).2, handling := .idle } := by
  have hdone := Member.multicast_eq_done running hsent
  have hrunning : (s.member.multicast .reliable body).2.stopped = false :=
    (s.member.alike_multicast .reliable body).stopped.trans running
  have hpassed := steps_passOn (s := { s.setPeers
      (s.member.peers.countForAll (s.member.frameLine .reliable body)) with
    handling := .passingOn f (s.member.frameLine .reliable body) s.member.peers.liveIds }) rfl hdone
  refine .head (.passOn handling (.refl _)) (hpassed.trans ?_)
  exact steps_route (s := { s with
    member := (s.member.multicast .reliable body).2, handling := .routing f }) hrunning rfl h

/-- A frame on the reliable path is handled in some steps. -/
theorem steps_onReliable {frame : Frame} {rest : List Frame} (running : s.member.stopped = false)
    (idle : s.handling = .idle) (next : s.inbound = frame :: rest)
    (path : ControlPath.ofText? frame.path = some .reliable)
    (h : (s.member.onReliable frame).1 ≠ .blocked) :
    ReflTransGen Step s { s with member := (s.member.onReliable frame).2, inbound := rest } := by
  have hstep := Step.take idle next
  unfold begin at hstep
  rw [path] at hstep
  rw [Member.onReliable_eq] at h ⊢
  dsimp only at hstep
  cases htake : s.member.takeIn frame with
  | none =>
    rw [htake, ← idle] at hstep
    exact .single hstep
  | some x =>
    obtain ⟨f, m⟩ := x
    have hrunning : m.stopped = false := (Member.alike_takeIn htake).stopped.trans running
    rw [htake] at hstep h
    dsimp only at hstep h ⊢
    rw [idle]
    by_cases hself : frame.sender = m.self
    · rw [if_pos hself] at hstep h ⊢
      exact .head hstep (steps_route hrunning rfl h)
    · rw [if_neg hself] at hstep h ⊢
      have harrived := steps_arrived (s := { s with
        member := m, inbound := rest, handling := .arrived f frame.body }) hrunning rfl
      rcases hsent : m.multicast .reliable frame.body with ⟨outcome, m'⟩
      rw [hsent] at h harrived
      cases outcome with
      | blocked => exact absurd rfl h
      | done => exact .head hstep (harrived nofun h)
      | failed e => exact .head hstep (harrived nofun h)

/-- A frame that the dispatcher takes is handled in some steps. -/
theorem steps_receive {frame : Frame} {rest : List Frame} (running : s.member.stopped = false)
    (idle : s.handling = .idle) (next : s.inbound = frame :: rest)
    (h : (s.member.receive frame).1 ≠ .blocked) :
    ReflTransGen Step s { s with member := (s.member.receive frame).2, inbound := rest } := by
  have hstep := Step.take idle next
  unfold begin at hstep
  rcases hpath : ControlPath.ofText? frame.path with _ | _ | _ | _ | _
  case some.reliable =>
    obtain ⟨hmember, hhandled⟩ := Member.receive_outcome hpath s.member
    rw [hmember]
    exact steps_onReliable running idle next hpath (hhandled h)
  -- Any other frame is handled at once.
  all_goals
    rw [hpath, ← idle] at hstep
    unfold Member.receive
    rw [hpath]
    exact .single hstep

theorem step_arrive_frame (watched : s.watching ≠ .unsubscribed) (frame : Frame) :
    Step s { s with inbound := s.inbound ++ [frame] } := by
  have harrived := @Step.arrive s (Record.encode frame) watched
  unfold State.arrive at harrived
  rw [Record.decode?_encode] at harrived
  exact harrived

/-- A frame that arrives while the dispatcher has nothing to do is handled in some steps. -/
theorem steps_arrive {frame : Frame} (watched : s.watching ≠ .unsubscribed)
    (running : s.member.stopped = false) (idle : s.handling = .idle) (nothing : s.inbound = [])
    (h : (s.member.receive frame).1 ≠ .blocked) :
    ReflTransGen Step s { s with member := (s.member.receive frame).2 } := by
  obtain ⟨m, inbound, handling, sendings, watching⟩ := s
  obtain rfl : inbound = [] := nothing
  exact .head (step_arrive_frame watched frame) (steps_receive running idle rfl h)

/-! ## Other tasks -/

/-- A message of the member's own is sent in some steps. -/
theorem steps_submit {id floodId : MessageId} {message : Message}
    (running : s.member.stopped = false)
    (h : (s.member.submit id floodId message).1 ≠ .blocked) :
    ReflTransGen Step s { s with member := (s.member.submit id floodId message).2 } := by
  rw [Member.submit_eq running] at h ⊢
  have hdone := Member.multicast_eq_done (m := s.member.openCollector id) running h
  -- The collection is open before the ask is sent.
  have hstart := Step.start (s := { s with
    member := s.member.openCollector id
    sendings := s.sendings ++ [.due (s.member.askEnvelope id floodId message)] }) rfl
    (List.Perm.refl s.member.peers.liveIds)
  have hqueued := steps_enqueue (s := { (State.setPeers { s with
      member := s.member.openCollector id }
      (s.member.peers.countForAll (s.member.frameLine .reliable
        (Record.encode (s.member.askEnvelope id floodId message))))) with
    sendings := s.sendings ++ [.underWay (s.member.frameLine .reliable
      (Record.encode (s.member.askEnvelope id floodId message))) s.member.peers.liveIds] })
    rfl hdone
  rw [List.append_nil] at hqueued
  exact .head .submit (.head hstart hqueued)

/-- The task that watches the group looks at it in some steps. -/
theorem steps_watchGroup (watching : s.watching = .waiting) :
    ReflTransGen Step s { s with member := s.member.watchGroup } := by
  unfold Member.watchGroup
  split
  · exact .refl
  · rename_i hchanged
    have hrelease := Step.releaseNoticed (s := { s with
      member := { s.member with seenChanges := s.member.peers.changes }, watching := .noticed }) rfl
    rw [← watching] at hrelease
    exact .tail (.single (.notice watching hchanged)) hrelease

end Tasks

end AgreedOrder
