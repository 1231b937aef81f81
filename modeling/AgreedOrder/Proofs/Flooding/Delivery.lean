/-
  AgreedOrder.Proofs.Flooding.Delivery

  Reliable multicast by flooding. A member is handed an envelope at most once,
  as its origin multicast it; an envelope leads to at most one multicast of its
  origin and one of each member; and once a group is at rest, an envelope that
  came to one member has come to every running one that it counts as live.

    * `countP_multicasts_le` — the multicasts of an envelope.
    * `routed_of_multicasts`, `routed_iff_reaches` — who is handed an envelope.
    * `flooded_once_to_all` — all of it, for every run.
-/

import AgreedOrder.Proofs.Flooding.Act
import AgreedOrder.Proofs.Flooding.Rest

namespace AgreedOrder.Flooding

variable {g : Layout} {s : State}

/-! ## The multicasts of an envelope -/

theorem countP_issued_le (hc : Carrying g s) (id : MessageId) :
    (s.issued.map fun x => (x.1, x.2.id)).countP (fun y => decide (y.2 = id)) ≤ 1 := by
  have hcount : (s.issued.map fun x => (x.1, x.2.id)).countP (fun y => decide (y.2 = id))
      = (s.issued.map (·.2.id)).count id := by
    rw [List.count_eq_countP, List.countP_map, List.countP_map]
    rfl
  rw [hcount]
  exact List.nodup_iff_count_le_one.1 hc.nodup id

/-- Each member passes an envelope on once. -/
theorem countP_passed_le (hc : Carrying g s) (id : MessageId) :
    s.passed.countP (fun y => decide (y.2 = id)) ≤ g.ids.length := by
  have hnodup : ((s.passed.filter fun y => decide (y.2 = id)).map (·.1)).Nodup := by
    refine (hc.passed_nodup.filter _).map_on fun y hy y' hy' heq => ?_
    have hid := of_decide_eq_true (List.mem_filter.1 hy).2
    have hid' := of_decide_eq_true (List.mem_filter.1 hy').2
    exact Prod.ext heq (hid.trans hid'.symm)
  rw [List.countP_eq_length_filter, ← List.length_map (f := Prod.fst)]
  refine (List.subperm_of_subset hnodup fun p hp => ?_).length_le
  obtain ⟨y, hy, rfl⟩ := List.mem_map.1 hp
  exact (hc.passed y (List.mem_filter.1 hy).1).1

/-- An envelope leads to at most one multicast of its origin and one of each member. -/
theorem countP_multicasts_le (hc : Carrying g s) (id : MessageId) :
    s.multicasts.countP (fun y => decide (y.2 = id)) ≤ g.ids.length + 1 := by
  have hissued := countP_issued_le hc id
  have hpassed := countP_passed_le hc id
  rw [State.multicasts, List.countP_append]
  omega

/-! ## Who is handed an envelope -/

/-- Whoever multicasts is in the group. -/
theorem Carrying.mem_of_multicasts (hc : Carrying g s) {y : NodeId × MessageId}
    (hy : y ∈ s.multicasts) : y.1 ∈ g.ids := by
  rcases List.mem_append.1 hy with hy | hy
  · obtain ⟨x, hx, rfl⟩ := List.mem_map.1 hy
    exact hc.issuer x hx
  · exact (hc.passed y hy).1

/-- A member that was handed an envelope has multicast it. -/
theorem multicasts_of_routed (hi : Invariant g s) {y : NodeId × Flood} (hy : y ∈ s.routed) :
    (y.1, y.2.id) ∈ s.multicasts :=
  hi.carrying.heard y.1 y.2.id (hi.routing.heard y (List.mem_append_left _ hy))

/-- What a member of a group at rest has heard of it was handed. -/
theorem routed_of_heard (hi : Invariant g s) (hquiet : s.Quiet g) {x : NodeId × Flood}
    (hx : x ∈ s.issued) {q : NodeId} (hrun : s.Running q)
    (hheard : x.2.id ∈ (s.members q).received) : (q, x.2) ∈ s.routed := by
  obtain ⟨f, hf, hid⟩ := hi.routing.handled q x.2.id hheard
  obtain ⟨o, ho⟩ := hi.routing.issued (q, f) hf
  have heq : (o, f) = x := hi.carrying.eq_of_id ho hx hid
  rw [← heq]
  rcases List.mem_append.1 hf with hf | hf
  · exact hf
  · -- A member that is yet to be handed an envelope waits with a multicast.
    obtain ⟨sending, hsending, hmem⟩ := List.mem_flatMap.1 hf
    obtain ⟨_, -, hnode⟩ := List.mem_map.1 hmem
    rw [← (Prod.mk.inj hnode).1] at hrun
    exact absurd hrun (hquiet.2.2 sending hsending)

/-- An envelope that a running member has multicast was handed to every running member that counts
    as live there. -/
theorem routed_of_multicasts (hi : Invariant g s) (hquiet : s.Quiet g) {x : NodeId × Flood}
    (hx : x ∈ s.issued) {p q : NodeId} (hp : (p, x.2.id) ∈ s.multicasts) (hrunp : s.Running p)
    (hrunq : s.Running q) (hlive : (s.members p).peers.isLive q = true) :
    (q, x.2) ∈ s.routed := by
  rcases hi.covering x hx p q hp hrunp hrunq hlive with hheard | haround
  · exact routed_of_heard hi hquiet hx hrunq hheard
  · exact absurd haround (hquiet.not_around hi hrunp hrunq)

/-- A member leads to another one if that one counts as live there. -/
def State.Leads (s : State) (p q : NodeId) : Prop := (s.members p).peers.isLive q = true

/-- Without crashes an envelope is handed to the members that its origin reaches, and to no others.
    The origin reaches itself, and is handed its own line. -/
theorem routed_iff_reaches (hi : Invariant g s) (hquiet : s.Quiet g)
    (hrun : ∀ p ∈ g.ids, s.Running p) {x : NodeId × Flood} (hx : x ∈ s.issued) (q : NodeId) :
    (q, x.2) ∈ s.routed ↔ Relation.ReflTransGen s.Leads x.1 q := by
  constructor
  · intro hq
    have hreached := hi.carrying.reached x hx q (multicasts_of_routed hi hq)
    refine Relation.ReflTransGen.mono (fun a b hknows => ?_) _ _ hreached
    exact hi.grouped.live a b hknows.2 (hrun b hknows.mem)
  · intro hreaches
    induction hreaches with
    | refl =>
      have horigin := hi.carrying.issuer x hx
      have hlive := hi.grouped.live x.1 x.1 (g.self_mem x.1 horigin) (hrun _ horigin)
      have hmulticast : (x.1, x.2.id) ∈ s.multicasts :=
        List.mem_append_left _ (List.mem_map.2 ⟨x, hx, rfl⟩)
      exact routed_of_multicasts hi hquiet hx hmulticast (hrun _ horigin) (hrun _ horigin) hlive
    | @tail a b _ hlead ih =>
      -- The member before it in the chain was handed the envelope, and so multicast it.
      have hmulticast := multicasts_of_routed hi ih
      have ha := hi.carrying.mem_of_multicasts hmulticast
      have hknows : g.Knows a b := ⟨ha, hi.grouped.known a b hlead⟩
      exact routed_of_multicasts hi hquiet hx hmulticast (hrun a ha) (hrun b hknows.mem) hlead

/-! ## Every run -/

/-- A member is handed an envelope once, as it was multicast by the one origin of its id; an
    envelope is multicast by its origin and once by each member at most, no run goes on for ever
    without a new envelope, and every run can come to rest; and at rest, what one running member was
    handed each running one was handed that counts as live there. Without crashes, an envelope was
    then handed to just those members that its origin reaches. -/
theorem flooded_once_to_all (h : Reachable g s) :
    ((s.routed.map fun y => (y.1, y.2.id)).Nodup ∧ (s.issued.map (·.2.id)).Nodup ∧
      ∀ y ∈ s.routed, ∃ o, (o, y.2) ∈ s.issued) ∧
    ((∀ id, s.multicasts.countP (fun y => decide (y.2 = id)) ≤ g.ids.length + 1) ∧
      s.passed.Nodup ∧ Acc (fun t s => Step g s t ∧ t.issued = s.issued) s ∧
      ∃ t, Relation.ReflTransGen (Calm g) s t ∧ t.Quiet g) ∧
    (s.Quiet g →
      (∀ p q f, (p, f) ∈ s.routed → s.Running p → s.Running q →
        (s.members p).peers.isLive q = true → (q, f) ∈ s.routed) ∧
      ((∀ p ∈ g.ids, s.Running p) → ∀ x ∈ s.issued, ∀ q,
        (q, x.2) ∈ s.routed ↔ Relation.ReflTransGen s.Leads x.1 q)) := by
  have hi := invariant_of_reachable h
  refine ⟨⟨?_, hi.carrying.nodup, fun y hy => ?_⟩,
    ⟨countP_multicasts_le hi.carrying, hi.carrying.passed_nodup, acc_of_reachable h,
      exists_quiet h⟩, fun hquiet => ⟨?_, fun hrun x hx q => ?_⟩⟩
  · have hnodup := hi.routing.nodup
    rw [State.handled, List.map_append] at hnodup
    exact hnodup.of_append_left
  · exact hi.routing.issued y (List.mem_append_left _ hy)
  · intro p q f hf hrunp hrunq hlive
    obtain ⟨o, ho⟩ := hi.routing.issued (p, f) (List.mem_append_left _ hf)
    have hmulticast := multicasts_of_routed (y := (p, f)) hi hf
    exact routed_of_multicasts hi hquiet ho hmulticast hrunp hrunq hlive
  · exact routed_iff_reaches hi hquiet hrun hx q

/-- Three members in a row: the first does not know the last, and nobody knows the first. -/
def row : Layout where
  ids := ["a", "b", "c"]
  peers p :=
    if p = "a" then [⟨"a", .v4 .unspecified 1⟩, ⟨"b", .v4 .unspecified 2⟩]
    else if p = "b" then [⟨"b", .v4 .unspecified 2⟩, ⟨"c", .v4 .unspecified 3⟩]
    else [⟨"c", .v4 .unspecified 3⟩]
  capacity _ := 1
  nodup := by decide
  self_mem := by decide
  closed := by decide

/-- An envelope with an ask in it. -/
def envelope : Flood := ⟨⟨1⟩, ControlPath.ask.text, [1]⟩

/-- The first member multicasts an envelope, the next one passes it on to the last, and each gets
    its own line after that. Each multicast goes to the next member before its own, so that the
    envelope is at the last one while the multicasts of the other two are still under way. -/
def relayActs : List Act :=
  [.multicast "a" ["b", "a"], .proceed "a", .write "a" "b", .arrive "a" "b" ["c", "b"],
    .proceed "b", .write "b" "c", .arrive "b" "c" ["c"], .proceed "c", .proceed "c",
    .proceed "b", .proceed "b", .proceed "a", .proceed "a", .write "a" "a",
    .arrive "a" "a" ["a", "b"], .write "b" "b", .arrive "b" "b" ["b", "c"], .write "c" "c",
    .arrive "c" "c" ["c"]]

theorem flooded_once_to_all_of_relay :
    (run row envelope relayActs).Quiet row ∧
      (∀ p ∈ row.ids, (run row envelope relayActs).Running p) ∧
      Relation.ReflTransGen (run row envelope relayActs).Leads "a" "c" ∧
      ¬(run row envelope relayActs).Leads "a" "c" := by
  have hquiet : (run row envelope relayActs).Quiet row ∧
      ∀ p ∈ row.ids, (run row envelope relayActs).Running p := by decide +kernel
  have hissued : ("a", envelope) ∈ (run row envelope relayActs).issued := by decide +kernel
  have hrouted : ("c", envelope) ∈ (run row envelope relayActs).routed := by decide +kernel
  have hlive : ((run row envelope relayActs).members "a").peers.isLive "c" = false := by
    decide +kernel
  have hpath : envelope.path = ControlPath.ask.text := rfl
  obtain ⟨-, -, hrest⟩ := flooded_once_to_all (reachable_run row hpath relayActs)
  have hreaches := ((hrest hquiet.1).2 hquiet.2 ("a", envelope) hissued "c").1 hrouted
  exact ⟨hquiet.1, hquiet.2, hreaches, Bool.eq_false_iff.1 hlive⟩

end AgreedOrder.Flooding
