/-
  AgreedOrder.Proofs.Stack.Overtaking

  No envelope overtakes one that its origin multicast before. A member that
  multicasts the second has put the first into every channel by then: the
  origin, because the first multicast was over when the second one started,
  and every other member, because it takes no line while it passes the first
  one on. So in each channel the second comes behind the first, unless that
  was heard at the other end.

    * `Follows` — one envelope comes behind another, wherever they are.
    * `Spread.follows` — this is so when the second multicast starts.
    * `Follows.turn` — and it stays so at every step.
-/

import AgreedOrder.Proofs.Stack.Spread

namespace AgreedOrder.Stack

open Protocol (Roster)
open Flooding (Sending lineOf lineOf_injective)

variable {g : Roster} {n n' : Flooding.State} {s s' : State} {o p q a b : NodeId}
  {f f₁ f₂ : Flood} {e : Option Flood}

/-- The second of two envelopes of one origin comes behind the first: in every channel at whose end
    the first one was not heard, at every member that multicasts it, and wherever it was heard. -/
structure Follows (n : Flooding.State) (o : NodeId) (f₁ f₂ : Flood) : Prop where
  ne : f₁.id ≠ f₂.id
  first : (o, f₁) ∈ n.issued
  second : (o, f₂) ∈ n.issued
  behind : ∀ a b, f₁.id ∈ (n.members b).received ∨
    Leads (lineOf a f₁) (lineOf a f₂) (channel n a b)
  sending : ∀ y ∈ n.sendings, ∀ a e, Spreads y a f₂ e → ∀ b ∈ y.targets, Reaches n a f₁ b
  heard : ∀ q, f₂.id ∈ (n.members q).received → (q, f₁) ∈ n.routed
  returned : ∀ y ∈ n.sendings, ¬Spreads y o f₁ none
  routed : ∀ q, Leads (q, f₁) (q, f₂) n.routed

/-! ## Facts that several steps need -/

/-- A multicast is of one envelope. -/
theorem Spreads.flood_eq {y : Sending} {e' : Option Flood} (h : Spreads y p f₁ e)
    (h' : Spreads y q f₂ e') : f₁ = f₂ := by
  have hline := h.line.symm.trans h'.line
  rw [← h.node, h'.node] at hline
  exact lineOf_injective q hline

theorem Spreads.around {y : Sending} (h : Spreads y a f e) (hy : y ∈ n.sendings)
    (hb : b ∈ y.targets) : n.Around a b (lineOf a f) :=
  around_iff.2 (Or.inr ⟨y, hy, h.node, h.line, hb⟩)

/-- An idle member has handled what it has heard of. -/
theorem Wired.routed_of_idle (hw : Wired g n) (idle : Idle n q) {o : NodeId}
    (hissued : (o, f) ∈ n.issued) (hseen : f.id ∈ (n.members q).received) :
    (q, f) ∈ n.routed := by
  obtain ⟨k, hk, hid⟩ := hw.routing.handled q _ hseen
  obtain ⟨o', ho'⟩ := hw.routing.issued _ hk
  obtain ⟨-, rfl⟩ := Prod.mk.inj (hw.issued_inj ho' hissued hid)
  refine (List.mem_append.1 hk).resolve_right fun hpending => ?_
  obtain ⟨x, hx, hmem⟩ := List.mem_flatMap.1 hpending
  obtain ⟨k', hk', heq⟩ := List.mem_map.1 hmem
  obtain ⟨hnode, -⟩ := Prod.mk.inj heq
  rw [(idle x hx hnode).1] at hk'
  cases hk'

/-- A member that has heard of the first envelope, and is idle, has put it into every channel. -/
theorem Follows.reaches (h : Follows n o f₁ f₂) (hs : Spread g n) (idle : Idle n q)
    (hseen : f₁.id ∈ (n.members q).received) (hb : b ∈ g.ids) : Reaches n q f₁ b := by
  by_cases hq : q = o
  · subst hq
    refine (hs.origin _ h.first b hb).resolve_right ?_
    rintro ⟨y, hy, hspreads, -⟩
    exact h.returned y hy hspreads
  · refine (hs.relay _ h.first q hq hseen b hb).resolve_right ?_
    rintro ⟨y, hy, hspreads, -⟩
    have hnone := (idle y hy hspreads.node).1
    rw [hspreads.envelope] at hnone
    cases hnone

/-! ## The second multicast starts -/

/-- Nothing was heard of an envelope that is not issued yet. -/
theorem Spread.not_around_of_fresh (hs : Spread g n) (hw : Wired g n)
    (fresh : ∀ x ∈ n.issued, x.2.id ≠ f.id) : ¬n.Around a b (lineOf a f) := by
  intro haround
  rcases hs.source a b f haround with hissued | hseen
  · exact fresh _ hissued rfl
  · obtain ⟨x, hx, hid⟩ := hw.issued_of_received hseen
    exact fresh x hx hid

/-- The second multicast starts when the first one is over. -/
theorem Spread.follows (hs : Spread g n) (hw : Wired g n) (hw' : Wired g n')
    (first : (o, f₁) ∈ n.issued) (returned : ∀ y ∈ n.sendings, ¬Spreads y o f₁ none)
    (h : Opened g n n' o f₂) : Follows n' o f₁ f₂ := by
  have hnone (a b : NodeId) : ¬n.Around a b (lineOf a f₂) := hs.not_around_of_fresh hw h.fresh
  have hne : f₁ ≠ f₂ := fun heq => h.fresh _ first (congrArg Flood.id heq)
  refine ⟨h.fresh _ first, ?_, ?_, fun a b => Or.inr (leads_of_not_mem fun hline => ?_),
    fun y hy a e hspreads b hb => ?_, fun q hseen => ?_, fun y hy hspreads => ?_,
    fun q => leads_of_not_mem fun hrouted => ?_⟩
  · exact h.issued ▸ List.mem_append_left _ first
  · exact h.issued ▸ List.mem_append_right _ (List.mem_singleton_self _)
  · rw [h.channel_eq] at hline
    exact hnone a b (around_iff.2 (Or.inl hline))
  · rcases h.started y hy with hold | hnew
    · exact absurd (hspreads.around hold hb) (hnone a b)
    -- The first envelope is in every channel.
    · obtain rfl : a = o := hspreads.node.symm.trans hnew.node
      have hmember := (hw'.ends _ _ _ (hspreads.around hy hb)).2
      refine Reaches.opened ?_ h
      refine (hs.origin _ first b hmember).resolve_right ?_
      rintro ⟨z, hz, hfirst, -⟩
      exact returned z hz hfirst
  · rw [h.received] at hseen
    obtain ⟨x, hx, hid⟩ := hw.issued_of_received hseen
    exact absurd hid (h.fresh x hx)
  · rcases h.started y hy with hold | hnew
    · exact returned y hold hspreads
    · exact hne (hspreads.flood_eq hnew)
  · rw [h.routed] at hrouted
    obtain ⟨o', ho'⟩ := hw.routing.issued _ (List.mem_append_left _ hrouted)
    exact h.fresh _ ho' rfl

/-! ## Each step -/

theorem Follows.flow (hf : Follows n o f₁ f₂) (hw : Wired g n) (h : Flow n n') :
    Follows n' o f₁ f₂ := by
  have hrouted {y : NodeId × Flood} (hy : y ∈ n.routed) : y ∈ n'.routed := by
    rcases h.routed with heq | ⟨x, -, f, -, heq⟩
    · exact heq ▸ hy
    · exact heq ▸ List.mem_append_left _ hy
  refine ⟨hf.ne, h.issued ▸ hf.first, h.issued ▸ hf.second, fun a b => ?_,
    fun y hy a e hspreads b hb => ?_, fun q hseen => ?_, fun y hy hspreads => ?_, fun q => ?_⟩
  · rw [h.received]
    obtain ⟨gone, kept, joined, hold, hnow, hgone, hjoined⟩ := h.lines a b
    rcases hf.behind a b with hseen | hbehind
    · exact Or.inl hseen
    by_cases hfirst : lineOf a f₁ ∈ gone
    · exact Or.inl (hgone f₁ hfirst)
    -- Lines of the second envelope join a channel only when the first one is there.
    · rw [hold] at hbehind
      by_cases hsecond : lineOf a f₂ ∈ joined
      · obtain ⟨x, hx, hnode, hline, hb⟩ := hjoined _ hsecond
        rcases hf.sending x hx a x.envelope ⟨hnode, hline, rfl⟩ b hb with hseen | hmem
        · exact Or.inl hseen
        · rw [hold, List.mem_append] at hmem
          have hkept := hmem.resolve_left hfirst
          exact Or.inr (hnow ▸ (hbehind.of_append hfirst).append fun _ => hkept)
      · exact Or.inr (hnow ▸ (hbehind.of_append hfirst).append fun hmem => absurd hmem hsecond)
  · rcases h.sending_of y hy with hreply | ⟨x, hx, hgone⟩
    · exact absurd hspreads.line (hreply.line_ne a f₂)
    · exact (hf.sending x hx a e ((Spreads.goneOn_iff hgone).1 hspreads) b
        (hgone.targets hb)).flow h
  · rw [h.received] at hseen
    exact hrouted (hf.heard q hseen)
  · rcases h.sending_of y hy with hreply | ⟨x, hx, hgone⟩
    · exact hreply.line_ne o f₁ hspreads.line
    · exact hf.returned x hx ((Spreads.goneOn_iff hgone).1 hspreads)
  · rcases h.routed with heq | ⟨x, hx, f, henvelope, heq⟩
    · exact heq ▸ hf.routed q
    -- What is handled was heard, and so the first envelope was handled.
    · rw [heq]
      refine (hf.routed q).append fun hmem => ?_
      obtain ⟨rfl, rfl⟩ := Prod.mk.inj (List.mem_singleton.1 hmem)
      obtain ⟨before, after, sending⟩ := List.append_of_mem hx
      have hpending := mem_pending sending henvelope
      exact hf.heard _ (hw.routing.heard _ (List.mem_append_right _ hpending))

theorem Follows.opened (hf : Follows n o f₁ f₂) (h : Opened g n n' p f) :
    Follows n' o f₁ f₂ := by
  have hne {k : Flood} (hk : (o, k) ∈ n.issued) : k ≠ f :=
    fun heq => h.fresh _ hk (congrArg Flood.id heq)
  refine ⟨hf.ne, h.issued ▸ List.mem_append_left _ hf.first,
    h.issued ▸ List.mem_append_left _ hf.second, fun a b => ?_, fun y hy a e hspreads b hb => ?_,
    fun q hseen => ?_, fun y hy hspreads => ?_, fun q => ?_⟩
  · rw [h.received, h.channel_eq]
    exact hf.behind a b
  · rcases h.started y hy with hold | hnew
    · exact (hf.sending y hold a e hspreads b hb).opened h
    · exact absurd (hspreads.flood_eq hnew) (hne hf.second)
  · rw [h.received] at hseen
    rw [h.routed]
    exact hf.heard q hseen
  · rcases h.started y hy with hold | hnew
    · exact hf.returned y hold hspreads
    · exact hne hf.first (hspreads.flood_eq hnew)
  · rw [h.routed]
    exact hf.routed q

/-- The member that hears of the second envelope has handled the first one. -/
theorem Follows.routed_of_heard (hf : Follows n o f₁ f₂) (hw : Wired g n)
    (h : Heard g n n' p q f₂) : (q, f₁) ∈ n.routed := by
  refine hw.routed_of_idle h.idle hf.first ?_
  refine (hf.behind p q).resolve_right fun hbehind => ?_
  exact List.not_mem_nil (hbehind [] _ h.oldest)

theorem Follows.step_heard (hf : Follows n o f₁ f₂) (hs : Spread g n) (hw : Wired g n)
    (hw' : Wired g n') (h : Heard g n n' p q f) : Follows n' o f₁ f₂ := by
  obtain ⟨o', ho'⟩ := hw.issued_of_line h.around
  have hrouted {y : NodeId × Flood} (hy : y ∈ n.routed) : y ∈ n'.routed := by
    rw [h.routed]
    split
    · exact List.mem_append_left _ hy
    · exact hy
  refine ⟨hf.ne, h.issued ▸ hf.first, h.issued ▸ hf.second, fun a b => ?_,
    fun y hy a e hspreads b hb => ?_, fun r hseen => ?_, fun y hy hspreads => ?_, fun r => ?_⟩
  · rcases hf.behind a b with hseen | hbehind
    · exact Or.inl (h.received_of hseen)
    by_cases hab : a = p ∧ b = q
    · obtain ⟨rfl, rfl⟩ := hab
      by_cases hfirst : f₁ = f
      · rw [h.received, if_pos rfl, hfirst]
        exact Or.inl (List.mem_cons_self ..)
      · rw [h.oldest, ← List.singleton_append] at hbehind
        refine Or.inr (hbehind.of_append fun hmem => hfirst ?_)
        exact lineOf_injective a (List.mem_singleton.1 hmem)
    · rw [h.channel_eq a b hab]
      exact Or.inr hbehind
  · rcases h.started y hy with hold | hreply | ⟨-, hnew⟩
    · exact (hf.sending y hold a e hspreads b hb).heard h
    · exact absurd hspreads.line (hreply.line_ne a f₂)
    -- The member passes on the second envelope, and has passed on the first one.
    · obtain rfl := hspreads.flood_eq hnew
      obtain rfl : a = q := hspreads.node.symm.trans hnew.node
      have hmember := (hw'.ends _ _ _ (hspreads.around hy hb)).2
      have hseen := hw.routing.heard _ (List.mem_append_left _ (hf.routed_of_heard hw h))
      exact (hf.reaches hs h.idle hseen hmember).heard h
  · rw [h.received] at hseen
    by_cases hold : f₂.id ∈ (n.members r).received
    · exact hrouted (hf.heard r hold)
    · split at hseen
      · rename_i hrq
        subst hrq
        have hid := (List.mem_cons.1 hseen).resolve_right hold
        obtain ⟨-, rfl⟩ := Prod.mk.inj (hw.issued_inj hf.second ho' hid)
        exact hrouted (hf.routed_of_heard hw h)
      · exact absurd hseen hold
  · rcases h.started y hy with hold | hreply | ⟨-, hnew⟩
    · exact hf.returned y hold hspreads
    · exact hreply.line_ne o f₁ hspreads.line
    · have henvelope := hspreads.envelope.symm.trans hnew.envelope
      cases henvelope
  · rw [h.routed]
    split
    · refine (hf.routed r).append fun hmem => ?_
      obtain ⟨rfl, rfl⟩ := Prod.mk.inj (List.mem_singleton.1 hmem)
      exact hf.routed_of_heard hw h
    · exact hf.routed r

theorem Follows.turn (hf : Follows n o f₁ f₂) (hs : Spread g n) (hw : Wired g n)
    (hw' : Wired g n') (h : Turn g n n') : Follows n' o f₁ f₂ := by
  cases h with
  | flow h => exact hf.flow hw h
  | opened h => exact hf.opened h
  | heard h => exact hf.step_heard hs hw hw' h

/-- What follows in one state of an orderly run follows in all later ones. -/
theorem Follows.orderly (hf : Follows s.net o f₁ f₂)
    (before : Relation.ReflTransGen (Orderly g) (State.init g) s)
    (run : Relation.ReflTransGen (Orderly g) s s') : Follows s'.net o f₁ f₂ := by
  induction run with
  | refl => exact hf
  | tail run next ih =>
    have hw := (Reachable.init.of_orderly (before.trans run)).wired
    exact ih.turn (spread_of_orderly (before.trans run)) hw (next.step.wired hw) (next.turn hw)

end AgreedOrder.Stack
