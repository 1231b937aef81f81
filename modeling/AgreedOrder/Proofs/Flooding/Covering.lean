/-
  AgreedOrder.Proofs.Flooding.Covering

  What becomes of a multicast. A member handles an envelope once, and it does
  so when it hears of it. Whoever multicasts an envelope has it on the way to
  each member that it still counts as live, until that one has heard of it.

    * `Routing` — what is handled, and how often.
    * `Covering` — whom a multicast comes to.
    * `invariant_of_reachable` — all that holds in every run.
-/

import AgreedOrder.Proofs.Flooding.Carrying

namespace AgreedOrder.Flooding

variable {g : Layout} {s s' : State}

/-! ## What is handled -/

/-- A member handles the envelopes that it heard of, each of them once. -/
structure Routing (s : State) : Prop where
  nodup : (s.handled.map fun y => (y.1, y.2.id)).Nodup
  heard : ∀ y ∈ s.handled, y.2.id ∈ (s.members y.1).received
  handled : ∀ p, ∀ id ∈ (s.members p).received, ∃ f, (p, f) ∈ s.handled ∧ f.id = id
  issued : ∀ y ∈ s.handled, ∃ o, (o, y.2) ∈ s.issued

theorem routing_init (g : Layout) : Routing (State.init g) where
  nodup := List.nodup_nil
  heard := nofun
  handled := fun _ _ h => absurd h List.not_mem_nil
  issued := nofun

/-- Nothing was issued, heard or handled. -/
theorem Routing.congr (hr : Routing s)
    (hreceived : ∀ p, (s'.members p).received = (s.members p).received)
    (hissued : s'.issued = s.issued) (hhandled : s'.handled.Perm s.handled) : Routing s' where
  nodup := (hhandled.map _).nodup_iff.2 hr.nodup
  heard := fun y hy => by
    rw [hreceived]
    exact hr.heard y (hhandled.mem_iff.1 hy)
  handled := fun p id hid => by
    rw [hreceived] at hid
    obtain ⟨f, hf, hfid⟩ := hr.handled p id hid
    exact ⟨f, hhandled.mem_iff.2 hf, hfid⟩
  issued := fun y hy => by
    rw [hissued]
    exact hr.issued y (hhandled.mem_iff.1 hy)

theorem Routing.opening {p : NodeId} {f : Flood} (hr : Routing s) (h : Opening g s s' p f) :
    Routing s' where
  nodup := h.handled ▸ hr.nodup
  heard := fun y hy => by
    rw [h.handled] at hy
    rw [h.received]
    exact hr.heard y hy
  handled := fun r id hid => by
    rw [h.received] at hid
    rw [h.handled]
    exact hr.handled r id hid
  issued := fun y hy => by
    rw [h.handled] at hy
    obtain ⟨o, ho⟩ := hr.issued y hy
    rw [h.issued]
    exact ⟨o, List.mem_append_left _ ho⟩

theorem Routing.firstArrival {p q : NodeId} {f : Flood} (hr : Routing s)
    (hissued : ∃ o, (o, f) ∈ s.issued) (h : FirstArrival s s' p q f) : Routing s' := by
  obtain ⟨o, ho⟩ := hissued
  have hreceived {r : NodeId} {id : MessageId} (hid : id ∈ (s.members r).received) :
      id ∈ (s'.members r).received := by
    rw [h.received]
    split
    · exact List.mem_cons_of_mem _ hid
    · exact hid
  have hcases {y : NodeId × Flood} (hy : y ∈ s'.handled) : y = (q, f) ∨ y ∈ s.handled :=
    List.mem_cons.1 (h.handled.mem_iff.1 hy)
  constructor
  · rw [(h.handled.map _).nodup_iff, List.map_cons, List.nodup_cons]
    refine ⟨fun hmem => ?_, hr.nodup⟩
    -- What was handled before was heard of before.
    obtain ⟨y, hy, heq⟩ := List.mem_map.1 hmem
    have hheard := hr.heard y hy
    rw [(Prod.mk.inj heq).1, (Prod.mk.inj heq).2] at hheard
    exact h.new hheard
  · intro y hy
    rcases hcases hy with rfl | hy
    · rw [h.received, if_pos rfl]
      exact List.mem_cons_self ..
    · exact hreceived (hr.heard y hy)
  -- Whatever was heard before is handled still.
  · intro r id hid
    have hold (hid : id ∈ (s.members r).received) : ∃ f, (r, f) ∈ s'.handled ∧ f.id = id := by
      obtain ⟨f', hf', hfid⟩ := hr.handled r id hid
      exact ⟨f', h.handled.mem_iff.2 (List.mem_cons_of_mem _ hf'), hfid⟩
    rw [h.received] at hid
    by_cases hrq : r = q
    · rw [if_pos hrq, List.mem_cons] at hid
      rcases hid with rfl | hid
      · rw [hrq]
        exact ⟨f, h.handled.mem_iff.2 (List.mem_cons_self ..), rfl⟩
      · exact hold hid
    · rw [if_neg hrq] at hid
      exact hold hid
  · intro y hy
    rw [h.issued]
    rcases hcases hy with rfl | hy
    · exact ⟨o, ho⟩
    · exact hr.issued y hy

/-! ## Whom a multicast comes to -/

/-- An envelope that a running member multicast has been heard by each running member that counts
    as live there, or is on its way. -/
def Covering (s : State) : Prop :=
  ∀ x ∈ s.issued, ∀ p q, (p, x.2.id) ∈ s.multicasts → s.Running p → s.Running q →
    (s.members p).peers.isLive q = true →
    x.2.id ∈ (s.members q).received ∨ s.Around p q (lineOf p x.2)

theorem covering_init (g : Layout) : Covering (State.init g) := nofun

/-- The line that would vanish is heard, or one of its ends has crashed: the queue of a running
    member that counts as live is read. -/
theorem Covering.onward (hv : Covering s) (hg : Grouped g s) (h : Onward s s')
    (hstep : Step g s s') : Covering s' := by
  intro x hx p q hp hrunp hrunq hlive
  rw [h.issued] at hx
  rw [h.multicasts] at hp
  have hrunp := hstep.running hrunp
  have hrunq := hstep.running hrunq
  have hlive := (hstep.steady p).live q hlive
  rw [h.received]
  rcases hv x hx p q hp hrunp hrunq hlive with hheard | ha
  · exact Or.inl hheard
  -- A line vanishes only if it is of no use.
  · rcases h.around p q _ ha with ha | hcrashed | hcrashed | hreader | ⟨f, hf, hheard⟩
    · exact Or.inr ha
    · exact absurd hrunp hcrashed
    · exact absurd hrunq hcrashed
    · rw [hg.reading p q (hg.known p q hlive) hrunq] at hreader
      cases hreader
    · rw [lineOf_injective p hf]
      exact Or.inl hheard

theorem Covering.opening {p : NodeId} {f : Flood} (hv : Covering s) (hc : Carrying g s)
    (h : Opening g s s' p f) (hstep : Step g s s') : Covering s' := by
  intro x hx r q hr hrunr hrunq hlive
  have hrunr := hstep.running hrunr
  have hrunq := hstep.running hrunq
  have hlive := (hstep.steady r).live q hlive
  rw [h.issued] at hx
  rw [h.received]
  rcases mem_append_singleton.1 hx with hx | rfl
  -- An envelope from before: the new multicast is not one of it.
  · rcases (h.mem_multicasts _).1 hr with hr | hr
    · exact (hv x hx r q hr hrunr hrunq hlive).imp_right fun ha => (h.around r q _).2 (Or.inl ha)
    · exact absurd (Prod.mk.inj hr).2 (h.fresh x hx)
  -- The new envelope: only its origin has multicast it, and its lines have just set out.
  · rcases (h.mem_multicasts _).1 hr with hr | hr
    · obtain ⟨x, hx, hid⟩ := hc.issued_of_multicasts hr
      exact absurd hid (h.fresh x hx)
    · obtain ⟨rfl, -⟩ := Prod.mk.inj hr
      exact Or.inr ((h.around r q _).2 (Or.inr ⟨rfl, rfl, hlive⟩))

/-- A member that passes nothing on had multicast the envelope itself: its own line brought it. -/
theorem Covering.firstArrival {p q : NodeId} {f : Flood} (hv : Covering s) (hc : Carrying g s)
    (h : FirstArrival s s' p q f) (hstep : Step g s s') : Covering s' := by
  obtain ⟨-, o, ho, -⟩ := h.issued_of hc
  intro x hx a b ha hruna hrunb hlive
  have hruna := hstep.running hruna
  have hrunb := hstep.running hrunb
  have hlive := (hstep.steady a).live b hlive
  rw [h.issued] at hx
  rcases (h.mem_multicasts _).1 ha with ha | ⟨hne, ha⟩
  -- A multicast from before: only the line that arrived is gone, and its envelope is heard.
  · rcases hv x hx a b ha hruna hrunb hlive with hheard | haround
    · rw [h.received]
      split
      · exact Or.inl (List.mem_cons_of_mem _ hheard)
      · exact Or.inl hheard
    · rcases h.around a b _ haround with haround | ⟨rfl, rfl, hline⟩
      · exact Or.inr haround
      · rw [h.received, if_pos rfl, lineOf_injective a hline]
        exact Or.inl (List.mem_cons_self ..)
  -- The multicast of the receiver, whose lines have just set out.
  · obtain ⟨rfl, hid⟩ := Prod.mk.inj ha
    have heq : x = (o, f) := hc.eq_of_id hx ho hid
    rw [heq]
    exact Or.inr (h.passed_on hne b hlive)

/-! ## All that holds in every run -/

/-- What holds in every state that a group can come to. -/
structure Invariant (g : Layout) (s : State) : Prop where
  grouped : Grouped g s
  carrying : Carrying g s
  routing : Routing s
  covering : Covering s

/-- What a step can do when all of this holds. -/
theorem Invariant.cases (hi : Invariant g s) (h : Step g s s') :
    Onward s s' ∨ (∃ p f, Opening g s s' p f) ∨ ∃ p q f, FirstArrival s s' p q f := by
  apply h.cases hi.grouped.self
  intro a b line ha
  obtain ⟨-, x, -, hline, -⟩ := hi.carrying.carried a b line ha
  exact ⟨x.2, hline⟩

theorem Invariant.step (hi : Invariant g s) (h : Step g s s') : Invariant g s' := by
  have hgrouped := hi.grouped.step h
  rcases hi.cases h with ho | ⟨p, f, ho⟩ | ⟨p, q, f, hf⟩
  · exact ⟨hgrouped, hi.carrying.onward ho, hi.routing.congr ho.received ho.issued ho.handled,
      hi.covering.onward hi.grouped ho h⟩
  · exact ⟨hgrouped, hi.carrying.opening hi.grouped ho, hi.routing.opening ho,
      hi.covering.opening hi.carrying ho h⟩
  · obtain ⟨-, o, ho, -⟩ := hf.issued_of hi.carrying
    exact ⟨hgrouped, hi.carrying.firstArrival hi.grouped hf, hi.routing.firstArrival ⟨o, ho⟩ hf,
      hi.covering.firstArrival hi.carrying hf h⟩

theorem invariant_of_reachable (h : Reachable g s) : Invariant g s := by
  induction h with
  | init => exact ⟨grouped_init g, carrying_init g, routing_init g, covering_init g⟩
  | step _ next ih => exact ih.step next

end AgreedOrder.Flooding
