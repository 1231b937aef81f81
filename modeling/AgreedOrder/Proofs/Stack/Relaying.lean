/-
  AgreedOrder.Proofs.Stack.Relaying

  What envelopes hold. An ask or an agreement that was issued in an envelope
  is still to be handled by each member that the envelope was not routed to
  yet; a list of what is under way that counts each of them as often follows
  every step.

    * `askOf?`, `agreementOf?` — what a member does with an envelope.
    * `Relayed` — what is under way, with a lemma for issuing and for routing.
-/

import AgreedOrder.Proofs.Stack.Wiring

namespace AgreedOrder.Stack

open Json
open Protocol (Roster)

variable {g : Roster} {n n' : Flooding.State} {s : State} {p q : NodeId} {f : Flood}

/-! ## What an envelope holds -/

/-- The ask in an envelope. -/
def askOf? (f : Flood) : Option Ask :=
  if ControlPath.ofText? f.path = some .ask then Record.decode? f.body else none

/-- The agreement in an envelope. -/
def agreementOf? (f : Flood) : Option Agreement :=
  if ControlPath.ofText? f.path = some .agreement then Record.decode? f.body else none

theorem askOf?_encode (id : MessageId) (ask : Ask) :
    askOf? ⟨id, ControlPath.ask.text, Record.encode ask⟩ = some ask := by
  unfold askOf?
  rw [if_pos (ControlPath.ofText?_text .ask), Record.decode?_encode]

theorem agreementOf?_encode (id : MessageId) (a : Agreement) :
    agreementOf? ⟨id, ControlPath.agreement.text, Record.encode a⟩ = some a := by
  unfold agreementOf?
  rw [if_pos (ControlPath.ofText?_text .agreement), Record.decode?_encode]

/-- An envelope holds one or the other. -/
theorem agreementOf?_of_ask (hpath : ControlPath.ofText? f.path = some .ask) :
    agreementOf? f = none := by
  unfold agreementOf?
  rw [hpath]
  rfl

theorem askOf?_of_agreement (hpath : ControlPath.ofText? f.path = some .agreement) :
    askOf? f = none := by
  unfold askOf?
  rw [hpath]
  rfl

/-- What a member does with an envelope. -/
theorem handle_cases (s : State) (p : NodeId) (f : Flood) :
    (∃ ask, askOf? f = some ask ∧ agreementOf? f = none ∧ s.handle p f = s.answer p ask) ∨
      (∃ a, askOf? f = none ∧ agreementOf? f = some a ∧
        s.handle p f = s.setMember p ((s.net.members p).adopt a)) ∨
      askOf? f = none ∧ agreementOf? f = none ∧ s.handle p f = s := by
  have hsame : s.setMember p (s.net.members p) = s := by
    unfold State.setMember State.setNet Flooding.State.setMember
    rw [Function.update_eq_self]
  unfold State.handle
  split
  · rename_i hpath
    have hask : askOf? f = Record.decode? f.body := if_pos hpath
    split
    · rename_i hnone
      exact Or.inr (Or.inr ⟨hask.trans hnone, agreementOf?_of_ask hpath, rfl⟩)
    · rename_i ask hsome
      exact Or.inl ⟨ask, hask.trans hsome, agreementOf?_of_ask hpath, rfl⟩
  · rename_i hpath
    have hagreement : agreementOf? f = Record.decode? f.body := if_pos hpath
    unfold Member.onAgreement
    split
    · rename_i hnone
      exact Or.inr (Or.inr ⟨askOf?_of_agreement hpath, hagreement.trans hnone, hsame⟩)
    · rename_i a hsome
      exact Or.inr (Or.inl ⟨a, askOf?_of_agreement hpath, hagreement.trans hsome, rfl⟩)
  · rename_i hnotAsk hnotAgreement
    exact Or.inr (Or.inr ⟨if_neg hnotAsk, if_neg hnotAgreement, rfl⟩)

/-! ## What is still to be handled -/

variable {α : Type} [DecidableEq α] {read : Flood → Option α} {underWay : List (NodeId × α)}
  {a : α}

/-- How many of the envelopes that hold this were not routed to a member yet. -/
def unrouted (read : Flood → Option α) (issued routed : List (NodeId × Flood)) (p : NodeId)
    (a : α) : Nat :=
  issued.countP fun x => decide (read x.2 = some a ∧ (p, x.2) ∉ routed)

/-- An envelope that holds something else, or is routed to another member, makes no difference. -/
theorem unrouted_append_of_ne {issued routed : List (NodeId × Flood)}
    (hne : q = p → read f ≠ some a) :
    unrouted read issued (routed ++ [(p, f)]) q a = unrouted read issued routed q a := by
  refine List.countP_congr fun x _ => ?_
  simp only [decide_eq_true_eq, mem_append_singleton, not_or]
  refine and_congr_right fun hread => and_iff_left fun heq => ?_
  obtain ⟨hq, hf⟩ := Prod.mk.inj heq
  exact hne hq (hf ▸ hread)

/-- One envelope less is to be routed once it is. -/
theorem unrouted_append {o : NodeId} {issued routed : List (NodeId × Flood)}
    (hnodup : (issued.map (·.2.id)).Nodup) (hissued : (o, f) ∈ issued) (hnew : (p, f) ∉ routed)
    (hread : read f = some a) :
    unrouted read issued routed p a = unrouted read issued (routed ++ [(p, f)]) p a + 1 := by
  obtain ⟨before, after, rfl⟩ := List.append_of_mem hissued
  -- No other envelope has the same id, so none of the others is routed.
  have hother : ∀ x ∈ before ++ after, x.2 ≠ f := by
    intro x hx heq
    rw [(List.perm_middle.map _).nodup_iff, List.map_cons, List.nodup_cons] at hnodup
    exact hnodup.1 (List.mem_map.2 ⟨x, hx, congrArg Flood.id heq⟩)
  have hsame (l : List (NodeId × Flood)) (hl : ∀ x ∈ l, x.2 ≠ f) :
      unrouted read l (routed ++ [(p, f)]) p a = unrouted read l routed p a := by
    refine List.countP_congr fun x hx => ?_
    simp only [decide_eq_true_eq, mem_append_singleton, not_or]
    exact and_congr_right fun _ => and_iff_left fun heq => hl x hx (Prod.mk.inj heq).2
  have hsplit (l : List (NodeId × Flood)) :
      unrouted read (before ++ (o, f) :: after) l p a
        = unrouted read (before ++ after) l p a + if (p, f) ∉ l then 1 else 0 := by
    unfold unrouted
    rw [List.perm_middle.countP_eq, List.countP_cons]
    simp only [hread, true_and, decide_eq_true_eq]
  rw [hsplit, hsplit, hsame _ hother, if_pos hnew,
    if_neg (not_not_intro (mem_append_singleton.2 (Or.inr rfl)))]

/-- What is under way goes to members, to each as often as an envelope that holds it was not routed
    to it yet. -/
structure Relayed (read : Flood → Option α) (g : Roster) (n : Flooding.State)
    (underWay : List (NodeId × α)) : Prop where
  group : ∀ x ∈ underWay, x.1 ∈ g.ids
  count_eq : ∀ p ∈ g.ids, ∀ a, underWay.count (p, a) = unrouted read n.issued n.routed p a

theorem relayed_init (read : Flood → Option α) (g : Roster) :
    Relayed read g (Flooding.State.init g.layout) [] :=
  ⟨nofun, fun _ _ _ => rfl⟩

theorem Relayed.congr (h : Relayed read g n underWay) (hissued : n'.issued = n.issued)
    (hrouted : n'.routed = n.routed) : Relayed read g n' underWay := by
  refine ⟨h.group, ?_⟩
  rw [hissued, hrouted]
  exact h.count_eq

/-- A new envelope is to be handled by every member. -/
theorem Relayed.issue (h : Relayed read g n underWay) (hw : Wired g n)
    (fresh : ∀ x ∈ n.issued, x.2.id ≠ f.id) (hread : read f = some a)
    (hissued : n'.issued = n.issued ++ [(p, f)]) (hrouted : n'.routed = n.routed) :
    Relayed read g n' (underWay ++ g.ids.map (·, a)) := by
  refine ⟨fun x hx => ?_, fun q hq b => ?_⟩
  · rcases List.mem_append.1 hx with hx | hx
    · exact h.group x hx
    · obtain ⟨q, hq, rfl⟩ := List.mem_map.1 hx
      exact hq
  · have hnew : (q, f) ∉ n.routed := by
      intro hmem
      obtain ⟨o, ho⟩ := hw.routing.issued _ (List.mem_append_left _ hmem)
      exact fresh _ ho rfl
    have hcount : (g.ids.map (·, a)).count (q, b) = if a = b then 1 else 0 := by
      by_cases hab : a = b
      · rw [if_pos hab, ← hab]
        refine List.count_eq_one_of_mem ?_ (List.mem_map.2 ⟨q, hq, rfl⟩)
        exact g.nodup.map fun _ _ heq => (Prod.mk.inj heq).1
      · rw [if_neg hab]
        refine List.count_eq_zero_of_not_mem fun hmem => hab ?_
        obtain ⟨_, -, heq⟩ := List.mem_map.1 hmem
        exact (Prod.mk.inj heq).2
    rw [List.count_append, h.count_eq q hq, hcount, hissued, hrouted]
    unfold unrouted
    rw [List.countP_append, List.countP_singleton]
    simp only [hread, hnew, not_false_eq_true, and_true, Option.some.injEq, decide_eq_true_eq]

/-- An envelope that holds something else is of no concern. -/
theorem Relayed.issue_other (h : Relayed read g n underWay) (hread : read f = none)
    (hissued : n'.issued = n.issued ++ [(p, f)]) (hrouted : n'.routed = n.routed) :
    Relayed read g n' underWay := by
  refine ⟨h.group, fun q hq b => ?_⟩
  rw [h.count_eq q hq, hissued, hrouted]
  unfold unrouted
  rw [List.countP_append, List.countP_singleton]
  simp only [hread, reduceCtorEq, false_and, decide_false, Bool.false_eq_true, if_false,
    Nat.add_zero]

/-- A member that an envelope is routed to handles what it holds. -/
theorem Relayed.route {o : NodeId} (h : Relayed read g n underWay)
    (hnodup : (n.issued.map (·.2.id)).Nodup) (hmem : (o, f) ∈ n.issued) (hp : p ∈ g.ids)
    (hnew : (p, f) ∉ n.routed) (hread : read f = some a) (hissued : n'.issued = n.issued)
    (hrouted : n'.routed = n.routed ++ [(p, f)]) :
    (p, a) ∈ underWay ∧ Relayed read g n' (underWay.erase (p, a)) := by
  have hless := unrouted_append hnodup hmem hnew hread
  have hcount := h.count_eq p hp a
  constructor
  · rw [← List.count_pos_iff]
    omega
  · refine ⟨fun x hx => h.group x (List.mem_of_mem_erase hx), fun q hq b => ?_⟩
    rw [hissued, hrouted]
    by_cases heq : (q, b) = (p, a)
    · obtain ⟨rfl, rfl⟩ := Prod.mk.inj heq
      rw [List.count_erase_self]
      omega
    -- Only this member's count of what it handled changes.
    · rw [List.count_erase_of_ne heq, h.count_eq q hq, unrouted_append_of_ne]
      intro hqp hfb
      rw [hread] at hfb
      exact heq (by rw [hqp, Option.some.inj hfb])

theorem Relayed.route_other (h : Relayed read g n underWay) (hread : read f = none)
    (hissued : n'.issued = n.issued) (hrouted : n'.routed = n.routed ++ [(p, f)]) :
    Relayed read g n' underWay := by
  refine ⟨h.group, fun q hq b => ?_⟩
  rw [h.count_eq q hq, hissued, hrouted, unrouted_append_of_ne]
  intro _ hsome
  rw [hread] at hsome
  cases hsome

/-- Nothing is under way once everything was routed to everybody. -/
theorem Relayed.eq_nil (h : Relayed read g n underWay)
    (hrouted : ∀ x ∈ n.issued, ∀ p ∈ g.ids, (p, x.2) ∈ n.routed) : underWay = [] := by
  refine List.eq_nil_iff_forall_not_mem.2 fun x hx => ?_
  have hp := h.group x hx
  have hpos := List.count_pos_iff.2 hx
  rw [h.count_eq x.1 hp x.2, unrouted, List.countP_pos_iff] at hpos
  obtain ⟨y, hy, hun⟩ := hpos
  exact (of_decide_eq_true hun).2 (hrouted y hy x.1 hp)

end AgreedOrder.Stack
