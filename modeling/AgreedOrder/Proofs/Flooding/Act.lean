/-
  AgreedOrder.Proofs.Flooding.Act

  Runs in which one envelope is flooded, written down as lists of acts. An act
  names the members it is about, and the order in which a multicast that it
  starts goes to the live ones; it is carried out if its step is possible.
  Every line on the way holds the one envelope, so that none has to be read.

    * `perform?`, `run?` — one act, and one after the other.
    * `reachable_run` — what a run comes to is reachable.
-/

import AgreedOrder.Proofs.Flooding.Covering

namespace AgreedOrder.Flooding

open Json

variable {g : Layout} {f : Flood} {s s' : State}

/-- Something that happens to a member. -/
inductive Act
  | multicast (p : NodeId) (targets : List NodeId)
  /-- The oldest multicast under way goes on to the next queue, is over, or is given up. -/
  | proceed (p : NodeId)
  | write (p q : NodeId)
  | arrive (p q : NodeId) (targets : List NodeId)
  | lose (p q : NodeId)
  | crash (p : NodeId)
  | dropReader (p q : NodeId)
  | eject (p q : NodeId)

/-- The first member of a list that meets a condition, with what is before and after it. -/
def splitAt? {α : Type} (cond : α → Bool) : List α → Option (List α × α × List α)
  | [] => none
  | x :: l =>
    if cond x then some ([], x, l)
    else (splitAt? cond l).map fun (before, y, after) => (x :: before, y, after)

theorem splitAt?_eq_some {α : Type} {cond : α → Bool} {l before after : List α} {y : α}
    (h : splitAt? cond l = some (before, y, after)) :
    l = before ++ y :: after ∧ cond y = true ∧ ∀ x ∈ before, cond x = false := by
  induction l generalizing before with
  | nil => cases h
  | cons x tl ih =>
    rw [splitAt?] at h
    split at h
    · rename_i hx
      cases h
      exact ⟨rfl, hx, nofun⟩
    · rename_i hx
      obtain ⟨⟨rest, z, k⟩, hsplit, heq⟩ := Option.map_eq_some_iff.1 h
      cases heq
      obtain ⟨htl, hy, hrest⟩ := ih hsplit
      refine ⟨?_, hy, fun x' hx' => ?_⟩
      · rw [htl, List.cons_append]
      · rcases List.mem_cons.1 hx' with rfl | hx'
        · exact Bool.eq_false_iff.2 hx
        · exact hrest x' hx'

/-- The oldest multicast of a member goes on, is over, or is given up. -/
def proceed? (s : State) (p : NodeId) : Option State :=
  match splitAt? (·.node == p) s.sendings with
  | none => none
  | some (before, x, after) =>
    if s.Running x.node then
      match x.targets with
      | [] => some (s.finish x (before ++ after))
      | q :: rest =>
        if ((s.members x.node).peers.enqueue q x.line).1 ≠ .full then
          some (s.enqueue x q (before ++ { x with targets := rest } :: after))
        else none
    else some (s.finish x (before ++ after))

/-- The oldest line of a link, and the lines without it. -/
def oldest? (s : State) (p q : NodeId) : Option (List Hop × Hop × List Hop) :=
  splitAt? (fun h => h.source == p && h.target == q) s.underWay

/-- A line from one member brings another one an envelope. -/
def bring (s : State) (p q : NodeId) (f : Flood) (targets : List NodeId) : State :=
  if f.id ∈ (s.members q).received then s
  else if p = q then (s.setMember q (hear (s.members q) f)).route q f
  else (s.setMember q (hear (s.members q) f)).passOn q f (Record.encode f) targets

theorem arrive_eq_bring {p q : NodeId} {targets : List NodeId} (hself : (s.members q).self = q) :
    s.arrive q (lineOf p f) targets = bring s p q f targets := by
  unfold bring
  split
  · rename_i hseen
    exact arrive_of_seen hseen
  · rename_i hseen
    exact arrive_of_new hself hseen

/-- Carry out an act, if that is possible. -/
def perform? (g : Layout) (f : Flood) (s : State) : Act → Option State
  | .multicast p targets =>
    if p ∈ g.ids ∧ s.Running p ∧ s.issued = [] ∧ targets.Perm (s.members p).peers.liveIds then
      some (s.multicast p f targets)
    else none
  | .proceed p => proceed? s p
  | .write p q =>
    if s.Running p then
      match (s.members p).peers.takeLine q with
      | (some (.line line), peers) => some (s.write p q line peers)
      | _ => none
    else none
  | .arrive p q targets =>
    match oldest? s p q with
    | none => none
    | some (before, h, after) =>
      if s.Running h.target ∧ (∀ x ∈ s.issued, x.2 = f) ∧
          targets.Perm (s.members h.target).peers.liveIds then
        some (bring { s with underWay := before ++ after } h.source h.target f targets)
      else none
  | .lose p q =>
    match oldest? s p q with
    | none => none
    | some (before, h, after) =>
      if ¬s.Running h.source ∨ ¬s.Running h.target then
        some { s with underWay := before ++ after }
      else none
  | .crash p =>
    if p ∈ g.ids ∧ s.Running p then some (s.setMember p (s.members p).stop) else none
  | .dropReader p q =>
    if p ∈ g.ids ∧ s.Running p ∧ ¬s.Running q ∧ (s.members p).peers.hasReader q = true then
      some (s.setPeers p ((s.members p).peers.dropReader q))
    else none
  | .eject p q =>
    if p ∈ g.ids ∧ s.Running p ∧ ¬s.Running q ∧ (s.members p).peers.isLive q = true then
      some (s.setMember p ((s.members p).eject q).2)
    else none

/-- Carry out acts one after the other. -/
def run? (g : Layout) (f : Flood) (acts : List Act) : Option State :=
  acts.foldlM (perform? g f) (State.init g)

/-- What a run of acts comes to; a run that gets stuck comes to nothing. -/
def run (g : Layout) (f : Flood) (acts : List Act) : State := (run? g f acts).getD (State.init g)

theorem step_of_proceed? {p : NodeId} (h : proceed? s p = some s') : Step g s s' := by
  unfold proceed? at h
  split at h
  · cases h
  · rename_i before x after hsplit
    obtain ⟨hl, -, -⟩ := splitAt?_eq_some hsplit
    split at h
    · rename_i hrun
      split at h
      -- The line stands in every queue.
      · rename_i htargets
        cases h
        exact .finish hrun hl htargets
      · rename_i q rest htargets
        obtain ⟨hroom, heq⟩ := Option.ite_none_right_eq_some.1 h
        cases heq
        exact .enqueue hrun hl htargets hroom
    -- A crashed member sends nothing on.
    · rename_i hstopped
      cases h
      exact .giveUp hstopped hl

theorem step_of_perform? {path : ControlPath} {act : Act} (hi : Invariant g s)
    (hpath : f.path = path.text) (h : perform? g f s act = some s') : Step g s s' := by
  cases act with
  | multicast p targets =>
    obtain ⟨⟨hp, hrun, hnone, horder⟩, heq⟩ := Option.ite_none_right_eq_some.1 h
    cases heq
    have hstep : Step g s (s.multicast p ⟨f.id, path.text, f.body⟩ targets) := by
      refine .multicast hp hrun (fun x hx => ?_) horder
      rw [hnone] at hx
      cases hx
    rw [← hpath] at hstep
    exact hstep
  | proceed p => exact step_of_proceed? h
  | write p q =>
    obtain ⟨hrun, h⟩ := Option.ite_none_right_eq_some.1 h
    split at h
    · rename_i line peers htake
      cases h
      exact .write hrun htake
    · cases h
  | arrive p q targets =>
    rw [perform?] at h
    split at h
    · cases h
    · rename_i before k after hsplit
      obtain ⟨hl, hk, hbefore⟩ := splitAt?_eq_some hsplit
      obtain ⟨⟨hrun, hone, horder⟩, heq⟩ := Option.ite_none_right_eq_some.1 h
      cases heq
      -- The line holds an envelope that was issued, and there is only one.
      have haround : s.Around k.source k.target k.line := (around_remove hl).2 (Or.inr rfl)
      obtain ⟨-, x, hx, hline, -⟩ := hi.carrying.carried _ _ _ haround
      rw [hone x hx] at hline
      have harrive := Step.arrive (g := g) hrun hl (fun j hj => ?_) horder
      · rw [hline, arrive_eq_bring (s := { s with underWay := before ++ after })
          (hi.grouped.self k.target)] at harrive
        exact harrive
      · rw [Bool.and_eq_true, beq_iff_eq, beq_iff_eq] at hk
        have hother := hbefore j hj
        rw [Bool.and_eq_false_iff, beq_eq_false_iff_ne, beq_eq_false_iff_ne] at hother
        rw [hk.1, hk.2]
        exact hother
  | lose p q =>
    rw [perform?] at h
    split at h
    · cases h
    · rename_i before k after hsplit
      obtain ⟨hl, -, -⟩ := splitAt?_eq_some hsplit
      obtain ⟨hcrashed, heq⟩ := Option.ite_none_right_eq_some.1 h
      cases heq
      exact .lose hl hcrashed
  | crash p =>
    obtain ⟨⟨hp, hrun⟩, heq⟩ := Option.ite_none_right_eq_some.1 h
    cases heq
    exact .crash hp hrun
  | dropReader p q =>
    obtain ⟨⟨hp, hrun, hcrashed, hreading⟩, heq⟩ := Option.ite_none_right_eq_some.1 h
    cases heq
    exact .dropReader hp hrun hcrashed hreading
  | eject p q =>
    obtain ⟨⟨hp, hrun, hcrashed, hlive⟩, heq⟩ := Option.ite_none_right_eq_some.1 h
    cases heq
    exact .eject hp hrun hcrashed hlive

theorem reachable_foldlM {path : ControlPath} {acts : List Act} (hpath : f.path = path.text)
    (hs : Reachable g s) (h : acts.foldlM (perform? g f) s = some s') : Reachable g s' := by
  induction acts generalizing s with
  | nil =>
    cases h
    exact hs
  | cons act rest ih =>
    rw [List.foldlM_cons] at h
    obtain ⟨t, ht, h⟩ := Option.bind_eq_some_iff.1 h
    exact ih (hs.step (step_of_perform? (invariant_of_reachable hs) hpath ht)) h

/-- What a run of acts comes to is reachable. -/
theorem reachable_run (g : Layout) {path : ControlPath} (hpath : f.path = path.text)
    (acts : List Act) : Reachable g (run g f acts) := by
  unfold run
  cases h : run? g f acts with
  | none => exact .init
  | some s => exact reachable_foldlM hpath .init h

end AgreedOrder.Flooding
