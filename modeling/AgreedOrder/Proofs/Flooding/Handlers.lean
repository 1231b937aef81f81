/-
  AgreedOrder.Proofs.Flooding.Handlers

  A multicast that finds room in every queue, and a frame that is handled in
  one go, are sequences of steps of a flooding group.

    * `steps_enqueueAll` — a line goes into one queue after the other.
    * `steps_flood` — a member multicasts an envelope of its own.
    * `steps_onReliable` — a member passes an envelope on and routes it.
-/

import AgreedOrder.Proofs.Flooding.Onward
import AgreedOrder.Proofs.Sending
import Mathlib.Logic.Relation

namespace AgreedOrder.Flooding

open Json

variable {g : Layout} {s : State}

/-- A state in which a multicast has put its line into every queue. -/
def sent (s : State) (x : Sending) (before after : List Sending) (m : Member) : State :=
  { s.setMember x.node m with sendings := before ++ { x with targets := [] } :: after }

/-- Whatever lets a multicast go on to the next queue lets its line go into one queue after the
    other. -/
theorem steps_enqueueAll {R : State → State → Prop}
    (enqueue : ∀ {s : State} {x : Sending} {q : NodeId} {rest : List NodeId}
      {before after : List Sending}, s.Running x.node → s.sendings = before ++ x :: after →
      x.targets = q :: rest → ((s.members x.node).peers.enqueue q x.line).1 ≠ .full →
      R s (s.enqueue x q (before ++ { x with targets := rest } :: after)))
    {x : Sending} {before after : List Sending} {m : Member}
    (running : s.Running x.node) (sending : s.sendings = before ++ x :: after)
    (h : Member.enqueueAll x.line x.targets (s.members x.node) = (.done, m)) :
    Relation.ReflTransGen R s (sent s x before after m) := by
  obtain ⟨node, line, targets, envelope⟩ := x
  induction targets generalizing s with
  | nil =>
    obtain rfl : s.members node = m := (Prod.mk.inj h).2
    have hsame : sent s ⟨node, line, [], envelope⟩ before after (s.members node) = s := by
      unfold sent State.setMember
      dsimp only
      rw [Function.update_eq_self, ← sending]
    rw [hsame]
  -- The line goes into the next queue, and then into the others.
  | cons q rest ih =>
    rw [Member.enqueueAll] at h
    split at h
    · -- A multicast that waits, or is refused, is not done.
      have hwait := (Prod.mk.inj h).1
      unfold Member.whenFull at hwait
      split at hwait <;> cases hwait
    · rename_i o peers hroom heq
      have hstep : R s (s.enqueue ⟨node, line, q :: rest, envelope⟩ q
          (before ++ ⟨node, line, rest, envelope⟩ :: after)) := by
        refine enqueue running sending rfl fun hfull => ?_
        rw [heq] at hfull
        exact hroom hfull
      have hmember : (s.enqueue ⟨node, line, q :: rest, envelope⟩ q
          (before ++ ⟨node, line, rest, envelope⟩ :: after)).members node
            = { s.members node with peers } := by
        show Function.update s.members node _ node = _
        rw [Function.update_self, heq]
      have hrest := ih (s := s.enqueue ⟨node, line, q :: rest, envelope⟩ q
        (before ++ ⟨node, line, rest, envelope⟩ :: after))
        (by rw [State.Running, hmember]; exact running) rfl (by rw [hmember]; exact h)
      have hsame : sent (s.enqueue ⟨node, line, q :: rest, envelope⟩ q
          (before ++ ⟨node, line, rest, envelope⟩ :: after)) ⟨node, line, rest, envelope⟩ before
            after m = sent s ⟨node, line, q :: rest, envelope⟩ before after m := by
        unfold sent State.enqueue State.setMember
        dsimp only
        rw [Function.update_idem]
      rw [hsame] at hrest
      exact .head hstep hrest

/-- A multicast that was started, and finds room in every queue, is over in some steps. -/
theorem steps_of_started (envelope : Option Flood) {t : State} {p : NodeId} {body : Bytes}
    {m : Member} (running : t.Running p)
    (hmember : t.members p
      = (s.startSending p body envelope (s.members p).peers.liveIds).members p)
    (hsendings : t.sendings
      = (s.startSending p body envelope (s.members p).peers.liveIds).sendings)
    (h : (s.members p).multicast .reliable body = (.done, m)) :
    Relation.ReflTransGen (Step g) t
      { t.setMember p m with
        sendings := s.sendings
        routed := t.routed ++ envelope.toList.map (p, ·) } := by
  have hcounted : t.members p = { s.members p with
      peers := (s.members p).peers.countForAll ((s.members p).frameLine .reliable body) } := by
    rw [hmember]
    exact Function.update_self ..
  have hsteps := steps_enqueueAll (Step.enqueue (g := g)) (s := t) (m := m)
    (x := ⟨p, (s.members p).frameLine .reliable body, (s.members p).peers.liveIds, envelope⟩)
    running hsendings (by rw [hcounted]; exact h)
  refine hsteps.tail ?_
  -- The line is in every queue, so that the multicast is over.
  have hrunning : (sent t ⟨p, (s.members p).frameLine .reliable body,
      (s.members p).peers.liveIds, envelope⟩ s.sendings [] m).Running p := by
    have hstopped := ((s.members p).alike_multicast .reliable body).stopped
    rw [h] at hstopped
    rw [State.Running, hcounted] at running
    show (Function.update t.members p m p).stopped = false
    rw [Function.update_self, hstopped]
    exact running
  have hfinish := Step.finish (g := g) hrunning (s := sent t _ s.sendings [] m) rfl rfl
  rw [List.append_nil] at hfinish
  exact hfinish

/-- A member multicasts an envelope of its own in some steps. -/
theorem steps_flood {p : NodeId} {id : MessageId} {path : ControlPath} {body : Bytes} {m : Member}
    (member : p ∈ g.ids) (running : s.Running p) (fresh : ∀ x ∈ s.issued, x.2.id ≠ id)
    (h : (s.members p).flood id path body = (.done, m)) :
    Relation.ReflTransGen (Step g) s
      { s.setMember p m with issued := s.issued ++ [(p, ⟨id, path.text, body⟩)] } := by
  -- The handler goes through the live members in the order of their ids.
  set targets := (s.members p).peers.liveIds
  have hrunning : (s.multicast p ⟨id, path.text, body⟩ targets).Running p :=
    (running_setMember (by rfl) p).2 running
  have hsteps := steps_of_started (g := g) (s := s) none hrunning rfl rfl h
  have hsame : ({ (s.multicast p ⟨id, path.text, body⟩ targets).setMember p m with
        sendings := s.sendings
        routed := (s.multicast p ⟨id, path.text, body⟩ targets).routed ++ [] } : State)
      = { s.setMember p m with issued := s.issued ++ [(p, ⟨id, path.text, body⟩)] } := by
    unfold State.multicast State.startSending State.setMember
    dsimp only
    rw [Function.update_idem, List.append_nil]
  exact .head (.multicast member running fresh (List.Perm.refl targets)) (hsame ▸ hsteps)

/-- A line that brings a member a new envelope of another one is passed on. -/
theorem arrive_of_takeIn (targets : List NodeId) {q : NodeId} {line : String} {frame : Frame}
    {f : Flood} {m : Member}
    (hframe : (Record.decode? (Bytes.ofText line) : Option Frame) = some frame)
    (hpath : ControlPath.ofText? frame.path = some .reliable)
    (htake : (s.members q).takeIn frame = some (f, m)) (hother : frame.sender ≠ m.self) :
    s.arrive q line targets = (s.setMember q m).passOn q f frame.body targets := by
  unfold State.arrive State.receive
  rw [hframe]
  dsimp only
  rw [if_pos hpath, htake]
  exact if_neg hother

/-- A frame that brings a member a new envelope of another one is handled in some steps: the
    envelope is multicast, and routed after that. -/
theorem steps_onReliable {h : Hop} {before after : List Hop} {frame : Frame} {f : Flood}
    {m : Member} (running : s.Running h.target) (underWay : s.underWay = before ++ h :: after)
    (oldest : ∀ k ∈ before, k.source ≠ h.source ∨ k.target ≠ h.target)
    (hframe : (Record.decode? (Bytes.ofText h.line) : Option Frame) = some frame)
    (hpath : ControlPath.ofText? frame.path = some .reliable)
    (htake : (s.members h.target).takeIn frame = some (f, hear (s.members h.target) f))
    (hother : frame.sender ≠ (s.members h.target).self)
    (hdone : (hear (s.members h.target) f).multicast .reliable frame.body = (.done, m)) :
    (s.members h.target).onReliable frame = m.onFlood f ∧
      Relation.ReflTransGen (Step g) s
        { s.setMember h.target m with
          underWay := before ++ after
          routed := s.routed ++ [(h.target, f)]
          passed := s.passed ++ [(h.target, f.id)] } := by
  constructor
  -- The handler routes the envelope when its multicast is done.
  · rw [Member.onReliable_eq, htake]
    dsimp only
    rw [if_neg (show frame.sender ≠ (hear (s.members h.target) f).self from hother), hdone]
  -- The arrival of the line starts that multicast, which then comes to its end.
  · set targets := (s.members h.target).peers.liveIds
    have harrive := arrive_of_takeIn (s := { s with underWay := before ++ after }) targets
      hframe hpath htake hother
    have hheard : (State.setMember { s with underWay := before ++ after } h.target
        (hear (s.members h.target) f)).members h.target = hear (s.members h.target) f :=
      Function.update_self ..
    have hrunning : (State.arrive { s with underWay := before ++ after } h.target h.line
        targets).Running h.target := by
      rw [harrive]
      refine (running_setMember (by rfl) h.target).2 ?_
      rw [State.Running, hheard]
      exact running
    have hstep := Step.arrive (g := g) running underWay oldest (List.Perm.refl targets)
    rw [harrive] at hrunning hstep
    have hsteps := steps_of_started (g := g) (some f) hrunning rfl (by rw [hheard]; rfl)
      (by rw [hheard]; exact hdone)
    have hsame : ({ (State.passOn (State.setMember { s with underWay := before ++ after } h.target
          (hear (s.members h.target) f)) h.target f frame.body targets).setMember h.target m with
          sendings := s.sendings
          routed := s.routed ++ [(h.target, f)] } : State)
        = { s.setMember h.target m with
            underWay := before ++ after
            routed := s.routed ++ [(h.target, f)]
            passed := s.passed ++ [(h.target, f.id)] } := by
      unfold State.passOn State.startSending State.setMember
      dsimp only
      rw [Function.update_idem, Function.update_idem]
    exact .head hstep (hsame ▸ hsteps)

end AgreedOrder.Flooding
