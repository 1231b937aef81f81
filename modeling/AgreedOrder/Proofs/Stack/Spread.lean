/-
  AgreedOrder.Proofs.Stack.Spread

  Who has multicast an envelope. Whoever has heard of an envelope has started
  to multicast it, its origin even before; and what a member multicasts has
  been heard by each member, or stands in the channel to it, or is still to
  be put there.

    * `Covers` — an envelope that one member sends has come to another one,
      or will.
    * `Spread` — who covers whom, with a lemma for each kind of step.
    * `spread_of_orderly` — this holds in every orderly run.
-/

import AgreedOrder.Proofs.Stack.Turns

namespace AgreedOrder.Stack

open Protocol (Roster)
open Flooding (Sending lineOf lineOf_injective around_init)

variable {g : Roster} {n n' : Flooding.State} {s : State} {p q a b : NodeId} {f f' : Flood}
  {e : Option Flood}

/-! ## Envelopes and their ids -/

/-- What a member has heard of was issued. -/
theorem Wired.issued_of_received (hw : Wired g n) {id : MessageId}
    (hid : id ∈ (n.members p).received) : ∃ x ∈ n.issued, x.2.id = id := by
  obtain ⟨f, hf, rfl⟩ := hw.routing.handled p id hid
  obtain ⟨o, ho⟩ := hw.routing.issued _ hf
  exact ⟨(o, f), ho, rfl⟩

/-- An id belongs to one envelope of one origin. -/
theorem Wired.issued_inj (hw : Wired g n) {x y : NodeId × Flood} (hx : x ∈ n.issued)
    (hy : y ∈ n.issued) (hid : x.2.id = y.2.id) : x = y :=
  List.inj_on_of_nodup_map hw.nodup hx hy hid

theorem Heard.around (h : Heard g n n' p q f) : n.Around p q (lineOf p f) := by
  refine around_iff.2 (Or.inl ?_)
  rw [h.oldest]
  exact List.mem_cons_self ..

/-! ## Whom an envelope comes to -/

/-- An envelope that one member sends was heard by another one, or stands in the channel to it. -/
def Reaches (n : Flooding.State) (a : NodeId) (f : Flood) (b : NodeId) : Prop :=
  f.id ∈ (n.members b).received ∨ lineOf a f ∈ channel n a b

theorem Reaches.flow (hr : Reaches n a f b) (h : Flow n n') : Reaches n' a f b := by
  rw [Reaches, h.received]
  exact hr.elim Or.inl h.stays

theorem Reaches.opened (hr : Reaches n a f b) (h : Opened g n n' p f') : Reaches n' a f b := by
  rw [Reaches, h.received, h.channel_eq]
  exact hr

theorem Heard.received_of (h : Heard g n n' p q f') {id : MessageId}
    (hid : id ∈ (n.members b).received) : id ∈ (n'.members b).received := by
  rw [h.received]
  split
  · exact List.mem_cons_of_mem _ hid
  · exact hid

/-- The line that leaves its channel was heard. -/
theorem Reaches.heard (hr : Reaches n a f b) (h : Heard g n n' p q f') : Reaches n' a f b := by
  rcases hr with hseen | hline
  · exact Or.inl (h.received_of hseen)
  by_cases hab : a = p ∧ b = q
  · obtain ⟨rfl, rfl⟩ := hab
    rw [h.oldest, List.mem_cons] at hline
    refine hline.imp_left fun heq => ?_
    rw [h.received, if_pos rfl, lineOf_injective _ heq]
    exact List.mem_cons_self ..
  · rw [Reaches, h.channel_eq a b hab]
    exact Or.inr hline

/-- An envelope reaches a member, or is still to be put into the channel by a multicast that is
    followed by something. -/
def Covers (n : Flooding.State) (a : NodeId) (f : Flood) (e : Option Flood) (b : NodeId) : Prop :=
  Reaches n a f b ∨ ∃ x ∈ n.sendings, Spreads x a f e ∧ b ∈ x.targets

theorem Spreads.goneOn_iff {x y : Sending} (h : GoneOn x y) :
    Spreads y a f e ↔ Spreads x a f e := by
  constructor
  · intro hy
    exact ⟨h.node ▸ hy.node, h.line ▸ hy.line, h.envelope ▸ hy.envelope⟩
  · intro hx
    exact ⟨h.node.trans hx.node, h.line.trans hx.line, h.envelope.trans hx.envelope⟩

theorem Covers.flow (hc : Covers n a f e b) (h : Flow n n') : Covers n' a f e b := by
  rcases hc with hreaches | ⟨x, hx, hspreads, hb⟩
  · exact Or.inl (hreaches.flow h)
  · rcases h.sending x hx b hb with hline | ⟨y, hy, hgone, hb⟩
    · rw [hspreads.node, hspreads.line] at hline
      exact Or.inl (Or.inr hline)
    · exact Or.inr ⟨y, hy, (Spreads.goneOn_iff hgone).2 hspreads, hb⟩

theorem Covers.opened (hc : Covers n a f e b) (h : Opened g n n' p f') : Covers n' a f e b := by
  refine hc.imp (fun hr => hr.opened h) ?_
  rintro ⟨x, hx, hrest⟩
  exact ⟨x, h.kept x hx, hrest⟩

theorem Covers.heard (hc : Covers n a f e b) (h : Heard g n n' p q f') : Covers n' a f e b := by
  refine hc.imp (fun hr => hr.heard h) ?_
  rintro ⟨x, hx, hrest⟩
  exact ⟨x, h.kept x hx, hrest⟩

/-! ## Who multicasts an envelope -/

/-- The lines of an envelope come from its origin, or from members that have heard of it. The origin
    multicasts its envelope, and each other member does that once it has heard of it and handles it
    after that. -/
structure Spread (g : Roster) (n : Flooding.State) : Prop where
  source : ∀ a b f, n.Around a b (lineOf a f) →
    (a, f) ∈ n.issued ∨ f.id ∈ (n.members a).received
  origin : ∀ x ∈ n.issued, ∀ b ∈ g.ids, Covers n x.1 x.2 none b
  relay : ∀ x ∈ n.issued, ∀ a, a ≠ x.1 → x.2.id ∈ (n.members a).received →
    ∀ b ∈ g.ids, Covers n a x.2 (some x.2) b

theorem spread_init (g : Roster) : Spread g (Flooding.State.init g.layout) where
  source _ _ _ h := absurd h around_init
  origin := nofun
  relay := nofun

theorem Flow.around_of (h : Flow n n') (ha : n'.Around a b (lineOf a f)) :
    n.Around a b (lineOf a f) := by
  rcases around_iff.1 ha with hline | ⟨y, hy, rfl, hline, hb⟩
  · obtain ⟨gone, kept, joined, hold, hnow, -, hjoined⟩ := h.lines a b
    rw [hnow, List.mem_append] at hline
    rcases hline with hline | hline
    · exact around_iff.2 (Or.inl (hold ▸ List.mem_append_right _ hline))
    · exact around_iff.2 (Or.inr (hjoined _ hline))
  · rcases h.sending_of y hy with hreply | ⟨x, hx, hgone⟩
    · exact absurd hline (hreply.line_ne _ f)
    · exact around_iff.2 (Or.inr
        ⟨x, hx, hgone.node.symm, hgone.line.symm.trans hline, hgone.targets hb⟩)

theorem Spread.flow (hs : Spread g n) (h : Flow n n') : Spread g n' where
  source a b f ha := by
    rw [h.issued, h.received]
    exact hs.source a b f (h.around_of ha)
  origin x hx b hb := (hs.origin x (h.issued ▸ hx) b hb).flow h
  relay x hx a ha hseen b hb := by
    rw [h.received] at hseen
    exact (hs.relay x (h.issued ▸ hx) a ha hseen b hb).flow h

theorem Spread.opened (hs : Spread g n) (hw : Wired g n) (h : Opened g n n' p f) :
    Spread g n' := by
  have hissued {x : NodeId × Flood} : x ∈ n'.issued ↔ x ∈ n.issued ∨ x = (p, f) := by
    rw [h.issued]
    exact mem_append_singleton
  refine ⟨fun a b k ha => ?_, fun x hx b hb => ?_, fun x hx a ha hseen b hb => ?_⟩
  · rw [hissued, h.received]
    rcases around_iff.1 ha with hline | ⟨y, hy, rfl, hline, hb⟩
    · rw [h.channel_eq] at hline
      exact (hs.source a b k (around_iff.2 (Or.inl hline))).imp_left Or.inl
    · rcases h.started y hy with hold | hnew
      · have hold := hs.source y.node b k (around_iff.2 (Or.inr ⟨y, hold, rfl, hline, hb⟩))
        exact hold.imp_left Or.inl
      · rw [hnew.line, hnew.node] at hline
        exact Or.inl (Or.inr (by rw [hnew.node, lineOf_injective p hline]))
  · rcases hissued.1 hx with hx | rfl
    · exact (hs.origin x hx b hb).opened h
    · exact Or.inr (h.sending b hb)
  -- Nobody has heard of the new envelope.
  · rw [h.received] at hseen
    rcases hissued.1 hx with hx | rfl
    · exact (hs.relay x hx a ha hseen b hb).opened h
    · obtain ⟨y, hy, hid⟩ := hw.issued_of_received hseen
      exact absurd hid (h.fresh y hy)

theorem Spread.heard (hs : Spread g n) (hw : Wired g n) (h : Heard g n n' p q f) :
    Spread g n' := by
  refine ⟨fun a b k ha => ?_, fun x hx b hb => ?_, fun x hx a ha hseen b hb => ?_⟩
  · have hold (ha : n.Around a b (lineOf a k)) :
        (a, k) ∈ n'.issued ∨ k.id ∈ (n'.members a).received := by
      rw [h.issued]
      exact (hs.source a b k ha).imp_right h.received_of
    rcases around_iff.1 ha with hline | ⟨y, hy, rfl, hline, hb⟩
    · refine hold (around_iff.2 (Or.inl ?_))
      by_cases hab : a = p ∧ b = q
      · obtain ⟨rfl, rfl⟩ := hab
        rw [h.oldest]
        exact List.mem_cons_of_mem _ hline
      · rw [← h.channel_eq a b hab]
        exact hline
    · rcases h.started y hy with hy | hreply | ⟨-, hnew⟩
      · exact hold (around_iff.2 (Or.inr ⟨y, hy, rfl, hline, hb⟩))
      · exact absurd hline (hreply.line_ne _ k)
      · rw [hnew.line, hnew.node] at hline
        rw [hnew.node, ← lineOf_injective q hline, h.received, if_pos rfl]
        exact Or.inr (List.mem_cons_self ..)
  · rw [h.issued] at hx
    exact (hs.origin x hx b hb).heard h
  · rw [h.issued] at hx
    by_cases hold : x.2.id ∈ (n.members a).received
    · exact (hs.relay x hx a ha hold b hb).heard h
    -- The member has just heard of it, from another one, and so passes it on.
    · obtain ⟨o, ho⟩ := hw.issued_of_line h.around
      rw [h.received] at hseen
      split at hseen
      · rename_i haq
        subst haq
        rcases List.mem_cons.1 hseen with hid | hseen
        · obtain rfl := hw.issued_inj hx ho hid
          refine Or.inr (h.sending (fun hpq => ?_) b hb)
          subst hpq
          rcases hs.source p p f h.around with hissued | hseen
          · exact ha (congrArg Prod.fst (hw.issued_inj hissued ho rfl))
          · exact h.new hseen
        · exact absurd hseen hold
      · exact absurd hseen hold

theorem Spread.turn (hs : Spread g n) (hw : Wired g n) (h : Turn g n n') : Spread g n' := by
  cases h with
  | flow h => exact hs.flow h
  | opened h => exact hs.opened hw h
  | heard h => exact hs.heard hw h

theorem spread_of_orderly (run : Relation.ReflTransGen (Orderly g) (State.init g) s) :
    Spread g s.net := by
  induction run with
  | refl => exact spread_init g
  | tail run next ih =>
    have hw := (Reachable.init.of_orderly run).wired
    exact ih.turn hw (next.turn hw)

end AgreedOrder.Stack
