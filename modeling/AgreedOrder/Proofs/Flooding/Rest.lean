/-
  AgreedOrder.Proofs.Flooding.Rest

  A group at rest. Nothing is on its way to a running member, and no running
  member waits for room. As long as that is not so something can go on without
  a crash or a new envelope, so that flooding comes to rest.

    * `State.Quiet` — a group at rest.
    * `exists_calm_of_not_quiet` — a group that is not at rest can go on.
    * `exists_quiet` — every group can come to rest.
-/

import AgreedOrder.Proofs.Flooding.Termination

namespace AgreedOrder.Flooding

open Json

variable {g : Layout} {s s' : State}

/-! ## Rest -/

/-- Nothing is on its way between running members, and nothing waits at one of them. -/
def State.Quiet (g : Layout) (s : State) : Prop :=
  (∀ h ∈ s.underWay, ¬s.Running h.target) ∧
  (∀ p ∈ g.ids, s.Running p → ∀ q ∈ g.ids, (s.members p).peers.waiting q = []) ∧
  ∀ x ∈ s.sendings, ¬s.Running x.node

instance (g : Layout) (s : State) : Decidable (s.Quiet g) :=
  inferInstanceAs (Decidable ((∀ h ∈ s.underWay, ¬s.Running h.target) ∧
    (∀ p ∈ g.ids, s.Running p → ∀ q ∈ g.ids, (s.members p).peers.waiting q = []) ∧
    ∀ x ∈ s.sendings, ¬s.Running x.node))

/-- No line is on its way from one running member to another. -/
theorem State.Quiet.not_around (hq : s.Quiet g) (hi : Invariant g s) {a b : NodeId} {line : String}
    (ha : s.Running a) (hb : s.Running b) : ¬s.Around a b line := by
  obtain ⟨hunderWay, hwaiting, hsendings⟩ := hq
  intro haround
  have hknows := (hi.carrying.carried a b line haround).1
  rcases haround with h | h | ⟨x, hx, rfl, -⟩
  · exact hunderWay _ h hb
  · rw [hwaiting a hknows.1 ha b hknows.mem] at h
    cases h
  · exact hsendings x hx ha

/-! ## Going on -/

/-- A step without a crash or a new envelope. -/
def Calm (g : Layout) (s s' : State) : Prop :=
  Step g s s' ∧ s'.issued = s.issued ∧ ∀ p, s'.Running p ↔ s.Running p

/-- What a line leads to neither stops a member nor is a new envelope. -/
theorem arrive_calm (s : State) (r : NodeId) (line : String) (targets : List NodeId) :
    (s.arrive r line targets).issued = s.issued ∧
      ∀ p, (s.arrive r line targets).Running p ↔ s.Running p := by
  unfold State.arrive
  split
  · exact ⟨rfl, fun _ => Iff.rfl⟩
  split
  · rename_i frame _ _
    unfold State.receive
    cases htake : (s.members r).takeIn frame with
    | none => exact ⟨rfl, fun _ => Iff.rfl⟩
    | some found =>
      obtain ⟨f, m⟩ := found
      rw [hear_of_takeIn htake]
      have hheard (p : NodeId) :
          (s.setMember r (hear (s.members r) f)).Running p ↔ s.Running p :=
        running_setMember (m := hear (s.members r) f) rfl p
      dsimp only
      split
      · exact ⟨rfl, hheard⟩
      · refine ⟨rfl, fun p => Iff.trans ?_ (hheard p)⟩
        exact running_setMember (s := s.setMember r (hear (s.members r) f)) (p := r) (by rfl) p
  · exact ⟨rfl, fun _ => Iff.rfl⟩

/-- The oldest line of a link that something is on. -/
theorem exists_oldest {l : List Hop} {h : Hop} (hmem : h ∈ l) :
    ∃ before k after, l = before ++ k :: after ∧ k.target = h.target ∧
      ∀ j ∈ before, j.source ≠ k.source ∨ j.target ≠ k.target := by
  cases hfind : l.find? fun k => decide (k.source = h.source ∧ k.target = h.target) with
  | none =>
    have hnone := List.find?_eq_none.1 hfind h hmem
    exact absurd (decide_eq_true ⟨rfl, rfl⟩) hnone
  | some k =>
    obtain ⟨hk, before, after, hl, hbefore⟩ := List.find?_eq_some_iff_append.1 hfind
    obtain ⟨hsource, htarget⟩ := of_decide_eq_true hk
    refine ⟨before, k, after, hl, htarget, fun j hj => ?_⟩
    have hj := hbefore j hj
    rw [Bool.not_eq_true', decide_eq_false_iff_not] at hj
    rw [hsource, htarget]
    exact not_and_or.1 hj

theorem exists_calm_of_waiting {p q : NodeId} (hrun : s.Running p)
    (h : (s.members p).peers.waiting q ≠ []) : ∃ t, Calm g s t := by
  obtain ⟨line, peers, hline⟩ := PeerTable.exists_takeLine h
  exact ⟨_, Step.write hrun hline, rfl, fun r => running_setMember (by rfl) r⟩

/-- A multicast of a running member goes on, or the queue where it waits does. -/
theorem exists_calm_of_sending (hi : Invariant g s) {x : Sending} (hx : x ∈ s.sendings)
    (hrun : s.Running x.node) : ∃ t, Calm g s t := by
  obtain ⟨before, after, hsendings⟩ := List.append_of_mem hx
  cases htargets : x.targets with
  | nil => exact ⟨_, Step.finish hrun hsendings htargets, rfl, fun _ => Iff.rfl⟩
  | cons q rest =>
    by_cases hfull : ((s.members x.node).peers.enqueue q x.line).1 = .full
    · have hwaiting := PeerTable.waiting_ne_nil_of_full (hi.grouped.roomy x.node) hfull
      exact exists_calm_of_waiting hrun hwaiting
    · exact ⟨_, Step.enqueue hrun hsendings htargets hfull, rfl,
        fun r => running_setMember (by rfl) r⟩

/-- A group that is not at rest can go on. -/
theorem exists_calm_of_not_quiet (hi : Invariant g s) (h : ¬s.Quiet g) : ∃ t, Calm g s t := by
  by_cases hunderWay : ∀ h ∈ s.underWay, ¬s.Running h.target
  · by_cases hsendings : ∀ x ∈ s.sendings, ¬s.Running x.node
    · have hwaiting : ¬∀ p ∈ g.ids, s.Running p → ∀ q ∈ g.ids,
          (s.members p).peers.waiting q = [] :=
        fun hwaiting => h ⟨hunderWay, hwaiting, hsendings⟩
      push Not at hwaiting
      obtain ⟨p, -, hrun, q, -, hne⟩ := hwaiting
      exact exists_calm_of_waiting hrun hne
    · push Not at hsendings
      obtain ⟨x, hx, hrun⟩ := hsendings
      exact exists_calm_of_sending hi hx hrun
  · push Not at hunderWay
    obtain ⟨k, hk, hrun⟩ := hunderWay
    obtain ⟨before, oldest, after, hl, htarget, hbefore⟩ := exists_oldest hk
    rw [← htarget] at hrun
    obtain ⟨hissued, hrunning⟩ := arrive_calm { s with underWay := before ++ after }
      oldest.target oldest.line (s.members oldest.target).peers.liveIds
    exact ⟨_, Step.arrive hrun hl hbefore (List.Perm.refl _), hissued, hrunning⟩

/-- Every group can come to rest without a crash or a new envelope. -/
theorem exists_quiet (h : Reachable g s) :
    ∃ t, Relation.ReflTransGen (Calm g) s t ∧ t.Quiet g := by
  induction acc_of_reachable h with
  | intro s _ ih =>
    by_cases hquiet : s.Quiet g
    · exact ⟨s, .refl, hquiet⟩
    · obtain ⟨t, hcalm⟩ := exists_calm_of_not_quiet (invariant_of_reachable h) hquiet
      obtain ⟨u, hrun, hu⟩ := ih t ⟨hcalm.1, hcalm.2.1⟩ (h.step hcalm.1)
      exact ⟨u, Relation.ReflTransGen.head hcalm hrun, hu⟩

end AgreedOrder.Flooding
