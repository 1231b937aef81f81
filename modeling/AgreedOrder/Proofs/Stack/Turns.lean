/-
  AgreedOrder.Proofs.Stack.Turns

  What an orderly step does to the lines between members. Lines move on in
  their channels, or an envelope is multicast by its origin, or the oldest
  line of a channel brings an idle member an envelope that it has not seen.
  Nothing else happens to envelopes.

    * `Still` — a step that moves no line.
    * `Flow`, `Opened`, `Heard` — the three kinds of steps.
    * `Orderly.turn` — every orderly step is of one of them.
-/

import AgreedOrder.Proofs.Stack.Channels
import AgreedOrder.Proofs.Stack.Orderly

namespace AgreedOrder.Stack

open Json
open Protocol (Roster)
open Flooding (Sending Hop lineOf hear lineOf_injective frameLine_encode around_remove
  received_startSending received_hear update_congr)

variable {g : Roster} {n n' n'' : Flooding.State} {s s' : State} {p q a b : NodeId} {f : Flood}
  {x y z : Sending}

/-! ## Multicasts -/

/-- A member multicasts an envelope, and does something with it after that, or nothing. -/
structure Spreads (x : Sending) (p : NodeId) (f : Flood) (e : Option Flood) : Prop where
  node : x.node = p
  line : x.line = lineOf p f
  envelope : x.envelope = e

/-- A member sends a proposal. -/
structure Replies (x : Sending) : Prop where
  envelope : x.envelope = none
  proposes : Proposes x.node x.line

theorem Replies.line_ne (h : Replies x) (p : NodeId) (f : Flood) : x.line ≠ lineOf p f := by
  obtain ⟨v, -, hline⟩ := h.proposes
  rw [hline]
  exact (lineOf_ne_proposalLine p f v).symm

/-- A sending has put its line into some queues since. -/
structure GoneOn (x y : Sending) : Prop where
  node : y.node = x.node
  line : y.line = x.line
  envelope : y.envelope = x.envelope
  targets : y.targets ⊆ x.targets

theorem goneOn_refl (x : Sending) : GoneOn x x := ⟨rfl, rfl, rfl, List.Subset.refl _⟩

/-! ## Steps that move no line -/

/-- A step that moves no line, and brings nobody an envelope. Members may start to send
    proposals. -/
structure Still (n n' : Flooding.State) : Prop where
  channel_eq : ∀ a b, channel n' a b = channel n a b
  received : ∀ p, (n'.members p).received = (n.members p).received
  issued : n'.issued = n.issued
  routed : n'.routed = n.routed
  kept : ∀ x ∈ n.sendings, x ∈ n'.sendings
  started : ∀ y ∈ n'.sendings, y ∈ n.sendings ∨ Replies y

theorem still_refl (n : Flooding.State) : Still n n :=
  ⟨fun _ _ => rfl, fun _ => rfl, rfl, rfl, fun _ hx => hx, fun _ hy => Or.inl hy⟩

theorem Still.trans (h : Still n n') (h' : Still n' n'') : Still n n'' where
  channel_eq a b := (h'.channel_eq a b).trans (h.channel_eq a b)
  received p := (h'.received p).trans (h.received p)
  issued := h'.issued.trans h.issued
  routed := h'.routed.trans h.routed
  kept x hx := h'.kept x (h.kept x hx)
  started y hy := (h'.started y hy).elim (h.started y) Or.inr

theorem still_setMember {m : Member} (hreceived : m.received = (n.members p).received)
    (hpeers : m.peers = (n.members p).peers) : Still n (n.setMember p m) where
  channel_eq a b := channel_setMember fun _ => by rw [hpeers]
  received := update_congr (·.received) hreceived
  issued := rfl
  routed := rfl
  kept _ hx := hx
  started _ hy := Or.inl hy

theorem still_of_sameWires {m : Member} (hm : (n.members p).SameWires m) :
    Still n (n.setMember p m) := still_setMember hm.received hm.peers

theorem still_startUnicast (hself : (n.members p).self = p) {v : Proposal} (hv : v.voter = p) :
    Still n (startUnicast n p q .proposal (Record.encode v)) := by
  cases hlive : (n.members p).peers.isLive q with
  | false =>
    rw [startUnicast_of_not_live hlive]
    exact still_refl n
  | true =>
    obtain ⟨hissued, hrouted⟩ := issued_startUnicast n p q .proposal (Record.encode v)
    have hchannel (a b : NodeId) : channel (startUnicast n p q .proposal (Record.encode v)) a b
        = channel n a b := channel_startUnicast ..
    obtain ⟨t, -, heq⟩ := startUnicast_of_live hlive .proposal (Record.encode v)
    rw [heq] at hissued hrouted hchannel ⊢
    refine ⟨hchannel, update_congr (·.received) (by rfl), hissued, hrouted,
      fun x hx => List.mem_append_left _ hx, fun y hy => ?_⟩
    rcases mem_append_singleton.1 hy with hy | rfl
    · exact Or.inl hy
    · exact Or.inr ⟨rfl, v, hv, frameLine_proposal (hself.trans hv.symm)⟩

/-- To handle an envelope moves no line. -/
theorem still_handle (hs : Standing g s.net) (p : NodeId) (f : Flood) :
    Still s.net (s.handle p f).net := by
  rcases handle_cases s p f with ⟨ask, -, -, heq⟩ | ⟨a, -, -, heq⟩ | ⟨-, -, heq⟩
  · rw [heq]
    have hset := hs.setMember (p := p) ((s.net.members p).sameWires_answer ask)
    have hvoter : ((s.net.members p).answer ask).1.voter = p :=
      (Sequencer.self_onAsk _ ask).1.trans (hs.voter p)
    exact (still_of_sameWires ((s.net.members p).sameWires_answer ask)).trans
      (still_startUnicast (hset.self p) hvoter)
  · rw [heq]
    exact still_of_sameWires ((s.net.members p).sameWires_adopt a)
  · rw [heq]
    exact still_refl s.net

/-! ## Lines that move on -/

/-- Lines move on in their channels. They leave at the front only if what they hold was heard, and
    join at the end only from multicasts under way. -/
structure Flow (n n' : Flooding.State) : Prop where
  lines : ∀ a b, ∃ gone kept joined,
    channel n a b = gone ++ kept ∧ channel n' a b = kept ++ joined ∧
    (∀ f, lineOf a f ∈ gone → f.id ∈ (n.members b).received) ∧
    ∀ l ∈ joined, ∃ x ∈ n.sendings, x.node = a ∧ x.line = l ∧ b ∈ x.targets
  received : ∀ p, (n'.members p).received = (n.members p).received
  issued : n'.issued = n.issued
  routed : n'.routed = n.routed ∨ ∃ x ∈ n.sendings, ∃ f, x.envelope = some f ∧
    n'.routed = n.routed ++ [(x.node, f)]
  sending_of : ∀ y ∈ n'.sendings, Replies y ∨ ∃ x ∈ n.sendings, GoneOn x y
  sending : ∀ x ∈ n.sendings, ∀ b ∈ x.targets,
    x.line ∈ channel n' x.node b ∨ ∃ y ∈ n'.sendings, GoneOn x y ∧ b ∈ y.targets

/-- A channel with the same lines. -/
theorem lines_of_eq (h : channel n' a b = channel n a b) :
    ∃ gone kept joined, channel n a b = gone ++ kept ∧ channel n' a b = kept ++ joined ∧
      (∀ f, lineOf a f ∈ gone → f.id ∈ (n.members b).received) ∧
      ∀ l ∈ joined, ∃ x ∈ n.sendings, x.node = a ∧ x.line = l ∧ b ∈ x.targets :=
  ⟨[], channel n a b, [], rfl, h.trans (List.append_nil _).symm, nofun, nofun⟩

theorem Still.flow (h : Still n n') : Flow n n' where
  lines a b := lines_of_eq (h.channel_eq a b)
  received := h.received
  issued := h.issued
  routed := Or.inl h.routed
  sending_of y hy := (h.started y hy).symm.imp_right fun hold => ⟨y, hold, goneOn_refl y⟩
  sending x hx _ hb := Or.inr ⟨x, h.kept x hx, goneOn_refl x, hb⟩

/-- What moves no line may come after. -/
theorem Flow.still (h : Flow n n') (h' : Still n' n'') : Flow n n'' where
  lines a b := by
    rw [h'.channel_eq]
    exact h.lines a b
  received p := (h'.received p).trans (h.received p)
  issued := h'.issued.trans h.issued
  routed := by
    rw [h'.routed]
    exact h.routed
  sending_of y hy := (h'.started y hy).elim (h.sending_of y) Or.inl
  sending x hx b hb := by
    rw [h'.channel_eq]
    refine (h.sending x hx b hb).imp_right ?_
    rintro ⟨y, hy, hrest⟩
    exact ⟨y, h'.kept y hy, hrest⟩

/-- A line of an envelope that is not heard yet stays in its channel. -/
theorem Flow.stays (h : Flow n n') (hline : lineOf a f ∈ channel n a b) :
    f.id ∈ (n.members b).received ∨ lineOf a f ∈ channel n' a b := by
  obtain ⟨gone, kept, joined, hold, hnow, hgone, -⟩ := h.lines a b
  rw [hold, List.mem_append] at hline
  rcases hline with hline | hline
  · exact Or.inl (hgone f hline)
  · exact Or.inr (hnow ▸ List.mem_append_left _ hline)

theorem flow_enqueue (hw : Wired g n) {rest : List NodeId} {before after : List Sending}
    (sending : n.sendings = before ++ x :: after) (next : x.targets = q :: rest)
    (room : ((n.members x.node).peers.enqueue q x.line).1 ≠ .full) :
    Flow n (n.enqueue x q (before ++ { x with targets := rest } :: after)) := by
  have hx : x ∈ n.sendings := (mem_iff_of_split sending).2 (Or.inl rfl)
  have hq : q ∈ x.targets := next ▸ List.mem_cons_self ..
  have haround : n.Around x.node q x.line := around_iff.2 (Or.inr ⟨x, hx, rfl, rfl, hq⟩)
  have hread := hw.standing.reading x.node q (hw.ends _ _ _ haround).2
  have hrest : GoneOn x { x with targets := rest } := by
    refine ⟨rfl, rfl, rfl, ?_⟩
    rw [next]
    exact List.subset_cons_self q rest
  have hchannel (a b : NodeId) := channel_enqueue (a := a) (b := b)
    (l := before ++ { x with targets := rest } :: after) room hread
  refine ⟨fun a b => ⟨[], _, _, rfl, hchannel a b, nofun, fun l hl => ?_⟩,
    update_congr (·.received) (by rfl), rfl, Or.inl rfl, fun y hy => Or.inr ?_, fun y hy b hb => ?_⟩
  · split at hl
    · rename_i hab
      obtain ⟨rfl, rfl⟩ := hab
      exact ⟨x, hx, rfl, (List.mem_singleton.1 hl).symm, hq⟩
    · cases hl
  · rcases (mem_iff_of_split rfl).1 hy with rfl | hy
    · exact ⟨x, hx, hrest⟩
    · exact ⟨y, (mem_iff_of_split sending).2 (Or.inr hy), goneOn_refl y⟩
  -- The line for the next queue gets there, and the others stay for later.
  · rcases (mem_iff_of_split sending).1 hy with rfl | hy
    · rw [next, List.mem_cons] at hb
      rcases hb with rfl | hb
      · left
        rw [hchannel, if_pos ⟨rfl, rfl⟩]
        exact List.mem_append_right _ (List.mem_singleton_self _)
      · exact Or.inr ⟨_, (mem_iff_of_split rfl).2 (Or.inl rfl), hrest, hb⟩
    · exact Or.inr ⟨y, (mem_iff_of_split rfl).2 (Or.inr hy), goneOn_refl y, hb⟩

/-- A multicast that is over has no line left. What it passed on is routed. -/
theorem flow_finish {before after : List Sending} (sending : n.sendings = before ++ x :: after)
    (complete : x.targets = []) : Flow n (n.finish x (before ++ after)) := by
  have hx : x ∈ n.sendings := (mem_iff_of_split sending).2 (Or.inl rfl)
  refine ⟨fun a b => lines_of_eq rfl, fun _ => rfl, rfl, ?_, fun y hy => Or.inr ?_,
    fun y hy b hb => ?_⟩
  · cases henvelope : x.envelope with
    | none => exact Or.inl (routed_finish_of_none henvelope n _)
    | some f =>
      refine Or.inr ⟨x, hx, f, henvelope, ?_⟩
      show n.routed ++ x.envelope.toList.map (x.node, ·) = _
      rw [henvelope]
      rfl
  · exact ⟨y, (mem_iff_of_split sending).2 (Or.inr hy), goneOn_refl y⟩
  · rcases (mem_iff_of_split sending).1 hy with rfl | hy
    · rw [complete] at hb
      cases hb
    · exact Or.inr ⟨y, hy, goneOn_refl y, hb⟩

theorem flow_write {line : String} {peers : PeerTable}
    (oldest : (n.members p).peers.takeLine q = (some (.line line), peers)) :
    Flow n (n.write p q line peers) where
  lines a b := lines_of_eq (channel_write oldest)
  received := update_congr (·.received) (by rfl)
  issued := rfl
  routed := Or.inl rfl
  sending_of y hy := Or.inr ⟨y, hy, goneOn_refl y⟩
  sending y hy _ hb := Or.inr ⟨y, hy, goneOn_refl y, hb⟩

/-- A line that arrives is gone. -/
theorem flow_remove {h : Hop} {before after : List Hop}
    (underWay : n.underWay = before ++ h :: after)
    (oldest : ∀ k ∈ before, k.source ≠ h.source ∨ k.target ≠ h.target)
    (useless : ∀ f, h.line = lineOf h.source f → f.id ∈ (n.members h.target).received) :
    Flow n { n with underWay := before ++ after } where
  lines a b := by
    refine ⟨_, _, [], channel_remove underWay oldest, (List.append_nil _).symm, fun f hf => ?_,
      nofun⟩
    split at hf
    · rename_i hab
      obtain ⟨rfl, rfl⟩ := hab
      exact useless f (List.mem_singleton.1 hf).symm
    · cases hf
  received _ := rfl
  issued := rfl
  routed := Or.inl rfl
  sending_of y hy := Or.inr ⟨y, hy, goneOn_refl y⟩
  sending y hy _ hb := Or.inr ⟨y, hy, goneOn_refl y, hb⟩

/-! ## Envelopes that are new -/

/-- A member starts to multicast an envelope of its own. -/
structure Opened (g : Roster) (n n' : Flooding.State) (p : NodeId) (f : Flood) : Prop where
  fresh : ∀ x ∈ n.issued, x.2.id ≠ f.id
  channel_eq : ∀ a b, channel n' a b = channel n a b
  received : ∀ r, (n'.members r).received = (n.members r).received
  issued : n'.issued = n.issued ++ [(p, f)]
  routed : n'.routed = n.routed
  kept : ∀ x ∈ n.sendings, x ∈ n'.sendings
  started : ∀ y ∈ n'.sendings, y ∈ n.sendings ∨ Spreads y p f none
  sending : ∀ b ∈ g.ids, ∃ y ∈ n'.sendings, Spreads y p f none ∧ b ∈ y.targets

theorem opened_multicast {targets : List NodeId} {m : Member} (hs : Standing g n)
    (hm : (n.members p).SameWires m) (fresh : ∀ x ∈ n.issued, x.2.id ≠ f.id)
    (order : targets.Perm (n.members p).peers.liveIds) :
    Opened g n ((n.setMember p m).multicast p f targets) p f := by
  have hmember : (n.setMember p m).members p = m := Function.update_self ..
  have hline : ((n.setMember p m).members p).frameLine .reliable (Record.encode f) = lineOf p f :=
    frameLine_encode (by rw [hmember, hm.self, hs.self]) f
  have hstill := still_of_sameWires hm
  refine ⟨fresh, fun a b => ?_, fun r => ?_, rfl, rfl, fun x hx => List.mem_append_left _ hx,
    fun y hy => ?_, fun b hb => ?_⟩
  · rw [channel_multicast]
    exact hstill.channel_eq a b
  · exact (received_startSending none targets r).trans (hstill.received r)
  · rcases mem_append_singleton.1 hy with hy | rfl
    · exact Or.inl hy
    · exact Or.inr ⟨rfl, hline, rfl⟩
  · exact ⟨_, List.mem_append_right _ (List.mem_singleton_self _), ⟨rfl, hline, rfl⟩,
      hs.mem_targets order hb⟩

/-- The oldest line of a channel brings an idle member an envelope that it has not seen. One of its
    own it handles at once, and one of another member it starts to multicast in turn. -/
structure Heard (g : Roster) (n n' : Flooding.State) (p q : NodeId) (f : Flood) : Prop where
  idle : Idle n q
  oldest : channel n p q = lineOf p f :: channel n' p q
  channel_eq : ∀ a b, ¬(a = p ∧ b = q) → channel n' a b = channel n a b
  new : f.id ∉ (n.members q).received
  received : ∀ r, (n'.members r).received
    = if r = q then f.id :: (n.members r).received else (n.members r).received
  issued : n'.issued = n.issued
  routed : n'.routed = if p = q then n.routed ++ [(q, f)] else n.routed
  kept : ∀ x ∈ n.sendings, x ∈ n'.sendings
  started : ∀ y ∈ n'.sendings, y ∈ n.sendings ∨ Replies y ∨ p ≠ q ∧ Spreads y q f (some f)
  sending : p ≠ q → ∀ b ∈ g.ids, ∃ y ∈ n'.sendings, Spreads y q f (some f) ∧ b ∈ y.targets

theorem Heard.still (h : Heard g n n' p q f) (h' : Still n' n'') : Heard g n n'' p q f where
  idle := h.idle
  oldest := by
    rw [h'.channel_eq]
    exact h.oldest
  channel_eq a b hab := (h'.channel_eq a b).trans (h.channel_eq a b hab)
  new := h.new
  received r := (h'.received r).trans (h.received r)
  issued := h'.issued.trans h.issued
  routed := h'.routed.trans h.routed
  kept x hx := h'.kept x (h.kept x hx)
  started y hy := (h'.started y hy).elim (h.started y) fun hreply => Or.inr (Or.inl hreply)
  sending hpq b hb := by
    obtain ⟨y, hy, hrest⟩ := h.sending hpq b hb
    exact ⟨y, h'.kept y hy, hrest⟩

section Arrive

variable {before after : List Hop}

/-- What is left of the channels when a line arrives. -/
theorem channel_arrived (underWay : n.underWay = before ++ ⟨p, q, lineOf p f⟩ :: after)
    (oldest : ∀ k ∈ before, k.source ≠ p ∨ k.target ≠ q) (hn : ∀ a b, channel n' a b
      = channel { n with underWay := before ++ after } a b) :
    channel n p q = lineOf p f :: channel n' p q ∧
      ∀ a b, ¬(a = p ∧ b = q) → channel n' a b = channel n a b := by
  have hremove (a b : NodeId) := channel_remove (a := a) (b := b) underWay oldest
  constructor
  · rw [hremove, if_pos ⟨rfl, rfl⟩, hn]
    rfl
  · intro a b hab
    rw [hremove, if_neg fun h => hab ⟨h.1.symm, h.2.symm⟩, hn]
    rfl

theorem channel_hear (n : Flooding.State) (q : NodeId) (f : Flood) :
    channel (n.setMember q (hear (n.members q) f)) a b = channel n a b :=
  channel_setMember fun _ => rfl

theorem heard_route (idle : Idle n q)
    (underWay : n.underWay = before ++ ⟨q, q, lineOf q f⟩ :: after)
    (oldest : ∀ k ∈ before, k.source ≠ q ∨ k.target ≠ q)
    (new : f.id ∉ (n.members q).received) :
    Heard g n ((Flooding.State.setMember { n with underWay := before ++ after } q
      (hear (n.members q) f)).route q f) q q f := by
  have hgone (a b : NodeId) : channel ((Flooding.State.setMember
      { n with underWay := before ++ after } q (hear (n.members q) f)).route q f) a b
        = channel { n with underWay := before ++ after } a b :=
    (channel_congr rfl rfl).trans (channel_hear { n with underWay := before ++ after } q f)
  obtain ⟨hoft, hchannel⟩ := channel_arrived underWay oldest hgone
  exact ⟨idle, hoft, hchannel, new, received_hear { n with underWay := before ++ after } q f, rfl,
    (if_pos rfl).symm, fun _ hx => hx, fun _ hy => Or.inl hy, fun hne => absurd rfl hne⟩

theorem heard_passOn (hs : Standing g n) (idle : Idle n q) (hne : p ≠ q)
    (underWay : n.underWay = before ++ ⟨p, q, lineOf p f⟩ :: after)
    (oldest : ∀ k ∈ before, k.source ≠ p ∨ k.target ≠ q)
    (new : f.id ∉ (n.members q).received) {targets : List NodeId}
    (order : targets.Perm (n.members q).peers.liveIds) :
    Heard g n ((Flooding.State.setMember { n with underWay := before ++ after } q
      (hear (n.members q) f)).passOn q f (Record.encode f) targets) p q f := by
  have hmember : (Flooding.State.setMember { n with underWay := before ++ after } q
      (hear (n.members q) f)).members q = hear (n.members q) f := Function.update_self ..
  have hspreads : Spreads ⟨q, ((Flooding.State.setMember { n with underWay := before ++ after } q
      (hear (n.members q) f)).members q).frameLine .reliable (Record.encode f),
      targets, some f⟩ q f (some f) := by
    refine ⟨rfl, frameLine_encode ?_ f, rfl⟩
    rw [hmember]
    exact hs.self q
  have hgone (a b : NodeId) : channel ((Flooding.State.setMember
      { n with underWay := before ++ after } q (hear (n.members q) f)).passOn q f
        (Record.encode f) targets) a b = channel { n with underWay := before ++ after } a b := by
    rw [channel_passOn]
    exact channel_hear { n with underWay := before ++ after } q f
  obtain ⟨hoft, hchannel⟩ := channel_arrived underWay oldest hgone
  refine ⟨idle, hoft, hchannel, new, fun r => ?_, rfl, (if_neg hne).symm,
    fun x hx => List.mem_append_left _ hx, fun y hy => ?_, fun _ b hb => ?_⟩
  · exact (received_startSending (some f) targets r).trans
      (received_hear { n with underWay := before ++ after } q f r)
  · rcases mem_append_singleton.1 hy with hy | rfl
    · exact Or.inl hy
    · exact Or.inr (Or.inr ⟨hne, hspreads⟩)
  · exact ⟨_, List.mem_append_right _ (List.mem_singleton_self _), hspreads,
      hs.mem_targets order hb⟩

end Arrive

/-! ## Every orderly step -/

/-- What an orderly step does to the lines. -/
inductive Turn (g : Roster) (n n' : Flooding.State) : Prop
  | flow (h : Flow n n')
  | opened {p : NodeId} {f : Flood} (h : Opened g n n' p f)
  | heard {p q : NodeId} {f : Flood} (h : Heard g n n' p q f)

/-- A line that arrives at an idle member. -/
theorem Wired.turn_arrive (hw : Wired g s.net) {h : Hop} {before after : List Hop}
    (underWay : s.net.underWay = before ++ h :: after)
    (oldest : ∀ k ∈ before, k.source ≠ h.source ∨ k.target ≠ h.target)
    (idle : Idle s.net h.target) {targets : List NodeId}
    (order : targets.Perm (s.net.members h.target).peers.liveIds) : Turn g s.net
      ((s.setNet { s.net with underWay := before ++ after }).arrive h.target h.line
        targets).net := by
  obtain ⟨p, q, line⟩ := h
  have haround : s.net.Around p q line := (around_remove underWay).2 (Or.inr rfl)
  rcases hw.carried p q line haround with ⟨x, -, rfl⟩ | ⟨v, -, rfl⟩
  · by_cases hseen : x.2.id ∈ (s.net.members q).received
    · rw [arrive_of_seen (s := s.setNet { s.net with underWay := before ++ after }) hseen]
      refine .flow (flow_remove underWay oldest fun f hf => ?_)
      rw [← lineOf_injective p hf]
      exact hseen
    · rw [arrive_of_new (s := s.setNet { s.net with underWay := before ++ after })
        (hw.standing.self q) hseen]
      split
      · rename_i hpq
        subst hpq
        have hrouted := hw.route underWay hseen
        exact .heard ((heard_route idle underWay oldest hseen).still
          (still_handle (s := s.setNet _) hrouted.standing p x.2))
      · rename_i hpq
        exact .heard (heard_passOn hw.standing idle hpq underWay oldest hseen order)
  -- A proposal is gone from the lines.
  · rw [arrive_proposalLine]
    have hflow := flow_remove underWay oldest fun f hf =>
      absurd hf.symm (lineOf_ne_proposalLine p f v)
    exact .flow (hflow.still (still_setMember rfl rfl))

/-- An orderly step moves lines on, or a member multicasts an envelope of its own, or an envelope
    comes to an idle member. -/
theorem Orderly.turn (h : Orderly g s s') (hw : Wired g s.net) : Turn g s.net s'.net := by
  obtain ⟨next, idle⟩ := h
  cases next with
  | submit _ _ freshFlood order =>
    exact .opened (opened_multicast hw.standing ⟨rfl, rfl, rfl, rfl, rfl⟩ freshFlood order)
  | @handOver p d rest =>
    have hstill : Still s.net (s.net.setMember p { s.net.members p with released := rest }) :=
      still_setMember rfl rfl
    exact .flow hstill.flow
  | move next =>
    cases next with
    | enqueue sending next room => exact .flow (flow_enqueue hw sending next room)
    | @finish x before after sending complete =>
      have hflow := flow_finish sending complete
      cases hx : x.envelope with
      | none =>
        rw [finish_of_none hx]
        exact .flow hflow
      | some f =>
        have hfinished := hw.finished sending complete
        rw [finish_of_some hx]
        exact .flow (hflow.still (still_handle (s := s.setNet _) hfinished.standing x.node f))
    | write oldest => exact .flow (flow_write oldest)
    | @arrive h before after _ underWay oldest order =>
      have hidle := idle h before after underWay (underWay_arrive ..)
      exact hw.turn_arrive underWay oldest hidle order
    | @goOn p c c' before after =>
      have hstill : Still s.net (s.net.setMember p { s.net.members p with
          collectors := before ++ c' :: after }) := still_setMember rfl rfl
      exact .flow hstill.flow
    | announce _ _ _ _ fresh order =>
      exact .opened (opened_multicast hw.standing ⟨rfl, rfl, rfl, rfl, rfl⟩ fresh order)
    | @watch p => exact .flow (still_of_sameWires (Member.sameWires_watchGroup _)).flow

end AgreedOrder.Stack
