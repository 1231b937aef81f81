/-
  AgreedOrder.Proofs.Protocol.Act

  Runs of a group written down as lists of acts. An act names the members and
  the message it is about; it is carried out if its step is possible.

    * `perform?`, `run?` — one act, and one after the other.
    * `reachable_run` — what a run comes to is reachable.
-/

import AgreedOrder.Proofs.Protocol.Step

namespace AgreedOrder.Protocol

open Json

variable {g : Roster} {s s' : State}

/-- Something that happens to a member. A message is named by its id. -/
inductive Act
  | submit (p : NodeId) (id : MessageId) (message : Message)
  | takeAsk (p : NodeId) (id : MessageId)
  | takeProposal (p voter : NodeId) (id : MessageId)
  /-- The oldest collection of votes takes into account what came in. -/
  | count (p : NodeId)
  | takeAgreement (p : NodeId) (id : MessageId)
  | watch (p : NodeId)
  | crash (p : NodeId)
  | eject (p q : NodeId)

/-- The oldest collection of votes of a member goes on or is over. -/
def countFirst? (g : Roster) (s : State) (p : NodeId) : Option State :=
  match (s.members p).collectors with
  | [] => none
  | c :: after =>
    match c.advance (s.members p).peers.liveIds (s.members p).peers.changes with
    | (false, c') => some (s.setCollectors p (c' :: after))
    | (true, c') => c'.votes.agreement.map fun a => s.announce g p after a

/-- The first thing under way to a member that meets a condition. -/
def underWayTo? {α : Type} (p : NodeId) (cond : α → Bool) (l : List (NodeId × α)) : Option α :=
  (l.find? fun x => x.1 == p && cond x.2).map (·.2)

/-- Carry out an act, if that is possible. -/
def perform? (g : Roster) (s : State) : Act → Option State
  | .submit p id message =>
    if p ∈ g.ids ∧ s.Running p ∧ ∀ a ∈ s.asked, a.id ≠ id then
      some (s.submit g ⟨p, id, Record.encode message⟩)
    else none
  | .takeAsk p id =>
    if s.Running p then (underWayTo? p (·.id == id) s.asks).map (s.takeAsk p ·) else none
  | .takeProposal p voter id =>
    if s.Running p then
      (underWayTo? p (fun v => v.voter == voter && v.id == id) s.proposals).map (s.takeProposal p ·)
    else none
  | .count p => if s.Running p then countFirst? g s p else none
  | .takeAgreement p id =>
    if s.Running p then (underWayTo? p (·.id == id) s.agreements).map (s.takeAgreement p ·)
    else none
  | .watch p => if s.Running p then some (s.setMember p (s.members p).watchGroup) else none
  | .crash p =>
    if p ∈ g.ids ∧ s.Running p then some (s.setMember p (s.members p).stop) else none
  | .eject p q =>
    if s.Running p ∧ ¬s.Running q then some (s.setMember p ((s.members p).eject q).2) else none

/-- Carry out acts one after the other. -/
def run? (g : Roster) (acts : List Act) : Option State := acts.foldlM (perform? g) (State.init g)

/-- What a run of acts comes to; a run that gets stuck comes to nothing. -/
def run (g : Roster) (acts : List Act) : State := (run? g acts).getD (State.init g)

theorem mem_of_underWayTo? {α : Type} {p : NodeId} {cond : α → Bool} {l : List (NodeId × α)}
    {a : α} (h : underWayTo? p cond l = some a) : (p, a) ∈ l := by
  obtain ⟨⟨q, b⟩, hfind, rfl⟩ := Option.map_eq_some_iff.1 h
  have hmem := List.mem_of_find?_eq_some hfind
  have hcond := List.find?_some hfind
  rw [Bool.and_eq_true, beq_iff_eq] at hcond
  rw [← hcond.1]
  exact hmem

theorem step_of_countFirst? {p : NodeId} (hrun : s.Running p)
    (h : countFirst? g s p = some s') : Step g s s' := by
  unfold countFirst? at h
  split at h
  · cases h
  · rename_i c after hc
    split at h
    · rename_i c' hadvance
      cases h
      exact @Step.goOn g s p c c' [] after hrun hc hadvance
    · rename_i c' hadvance
      obtain ⟨a, ha, rfl⟩ := Option.map_eq_some_iff.1 h
      exact @Step.announce g s p c c' [] after a hrun hc hadvance ha

theorem step_of_perform? {act : Act} (h : perform? g s act = some s') : Step g s s' := by
  cases act with
  | submit p id message =>
    obtain ⟨⟨hp, hrun, hfresh⟩, heq⟩ := Option.ite_none_right_eq_some.1 h
    cases heq
    exact .submit hp hrun hfresh
  | takeAsk p id =>
    obtain ⟨hrun, h⟩ := Option.ite_none_right_eq_some.1 h
    obtain ⟨x, hx, rfl⟩ := Option.map_eq_some_iff.1 h
    exact .takeAsk hrun (mem_of_underWayTo? hx)
  | takeProposal p voter id =>
    obtain ⟨hrun, h⟩ := Option.ite_none_right_eq_some.1 h
    obtain ⟨x, hx, rfl⟩ := Option.map_eq_some_iff.1 h
    exact .takeProposal hrun (mem_of_underWayTo? hx)
  | count p =>
    obtain ⟨hrun, h⟩ := Option.ite_none_right_eq_some.1 h
    exact step_of_countFirst? hrun h
  | takeAgreement p id =>
    obtain ⟨hrun, h⟩ := Option.ite_none_right_eq_some.1 h
    obtain ⟨x, hx, rfl⟩ := Option.map_eq_some_iff.1 h
    exact .takeAgreement hrun (mem_of_underWayTo? hx)
  | watch p =>
    obtain ⟨hrun, heq⟩ := Option.ite_none_right_eq_some.1 h
    cases heq
    exact .watch hrun
  | crash p =>
    obtain ⟨⟨hp, hrun⟩, heq⟩ := Option.ite_none_right_eq_some.1 h
    cases heq
    exact .crash hp hrun
  | eject p q =>
    obtain ⟨⟨hrun, hcrashed⟩, heq⟩ := Option.ite_none_right_eq_some.1 h
    cases heq
    exact .eject hrun hcrashed

theorem reachable_foldlM {acts : List Act} (hs : Reachable g s)
    (h : acts.foldlM (perform? g) s = some s') : Reachable g s' := by
  induction acts generalizing s with
  | nil =>
    cases h
    exact hs
  | cons act rest ih =>
    rw [List.foldlM_cons] at h
    obtain ⟨t, ht, h⟩ := Option.bind_eq_some_iff.1 h
    exact ih (hs.step (step_of_perform? ht)) h

/-- What a run of acts comes to is reachable. -/
theorem reachable_run (g : Roster) (acts : List Act) : Reachable g (run g acts) := by
  unfold run
  cases h : run? g acts with
  | none => exact .init
  | some s => exact reachable_foldlM .init h

end AgreedOrder.Protocol
