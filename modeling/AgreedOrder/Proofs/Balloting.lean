/-
  AgreedOrder.Proofs.Balloting

  A group seen only as members that answer asks and ballots that collect the
  answers. Everything else is free: asks come again, ballots count any answer
  at any time and are announced whether they are complete or not, agreements
  reach any member in any order and any number of times, and members crash or
  are taken out of the group at will. Still no two messages are agreed in the
  same place, since no member gives the same number to two messages.

    * `State.act`, `after` — what can happen, and what it comes to.
    * `Answering` — what a member answered and what it will answer.
    * `agreed_places_differ` — no two messages share number and process.
-/

import AgreedOrder.Proofs.Log
import AgreedOrder.Proofs.Sequencer.Release
import AgreedOrder.Proofs.Votes
import Mathlib.Data.List.Induction
import Mathlib.Logic.Function.Basic

namespace AgreedOrder.Balloting

open Sequencer

/-! ## States -/

/-- The members of a group, the ballots that were opened, and what was answered and announced so
    far. -/
structure State where
  members : NodeId → Member
  ballots : List Votes
  replies : List Proposal
  announced : List Agreement

/-- Something that happens to a member or a ballot. A ballot is named by its place. -/
inductive Act where
  | ask (p : NodeId) (ask : Ask)
  | release (p : NodeId)
  | take (p : NodeId) (a : Agreement)
  | poll (id : MessageId)
  | count (k : Nat) (v : Proposal)
  | announce (k : Nat)
  | crash (p : NodeId)
  | eject (p q : NodeId)

namespace State

/-- A group that has said nothing. -/
def init (nodes : List Node) (capacity : Nat) : State :=
  { members := fun p => Member.init p nodes capacity
    ballots := []
    replies := []
    announced := [] }

/-- Put a member in another state. -/
def setMember (s : State) (p : NodeId) (m : Member) : State :=
  { s with members := Function.update s.members p m }

theorem members_setMember_self (s : State) (p : NodeId) (m : Member) :
    (s.setMember p m).members p = m := Function.update_self ..

theorem members_setMember_of_ne (s : State) {p q : NodeId} (m : Member) (h : q ≠ p) :
    (s.setMember p m).members q = s.members q := Function.update_of_ne h ..

/-- Put a sequencer in another state. -/
def setSequencer (s : State) (p : NodeId) (t : Sequencer) : State :=
  s.setMember p { s.members p with sequencer := t }

/-- A member answers an ask. -/
def ask (s : State) (p : NodeId) (ask : Ask) : State :=
  { s.setSequencer p ((s.members p).sequencer.onAsk ask).2 with
    replies := s.replies ++ [((s.members p).sequencer.onAsk ask).1] }

/-- Count an answer in a ballot. -/
def count (s : State) (k : Nat) (v : Proposal) : State :=
  { s with ballots := s.ballots.modify k (·.record v) }

/-- What an act comes to. A crashed member does nothing, only answers that a member gave are
    counted, only what was announced is taken, and only what a ballot amounts to is announced;
    anything else changes nothing. -/
def act (s : State) : Act → State
  | .ask p ask => if (s.members p).stopped then s else s.ask p ask
  | .release p => if (s.members p).stopped then s else s.setMember p (s.members p).release
  | .take p a =>
    if (s.members p).stopped = false ∧ a ∈ s.announced then
      s.setSequencer p ((s.members p).sequencer.onAgreement a).2
    else s
  | .poll id => { s with ballots := s.ballots ++ [Votes.init id] }
  | .count k v => if v ∈ s.replies then s.count k v else s
  | .announce k =>
    match s.ballots[k]?.bind Votes.agreement with
    | none => s
    | some a => { s with announced := s.announced ++ [a] }
  | .crash p => s.setMember p (s.members p).stop
  | .eject p q => if (s.members p).stopped then s else s.setMember p ((s.members p).eject q).2

end State

/-- What a group comes to by some acts, one after the other. -/
def after (nodes : List Node) (capacity : Nat) (acts : List Act) : State :=
  acts.foldl State.act (State.init nodes capacity)

theorem after_append_singleton (nodes : List Node) (capacity : Nat) (acts : List Act) (x : Act) :
    after nodes capacity (acts ++ [x]) = (after nodes capacity acts).act x := by
  simp only [after, List.foldl_append, List.foldl_cons, List.foldl_nil]

/-! ## The answers of one member -/

/-- A sequencer has answered with numbers up to the largest it proposed, and what it holds it has
    answered for. -/
structure Answering (p : NodeId) (replies : List Proposal) (t : Sequencer) : Prop where
  self_eq : t.self = p
  coherent : t.Coherent
  le_maxProposed : ∀ v ∈ replies, v.voter = p → v.number ≤ t.maxProposed
  held_replied : ∀ id x, t.held? id = some x → ⟨p, id, x.message.proposed⟩ ∈ replies

variable {p : NodeId} {replies : List Proposal} {t : Sequencer}

theorem Answering.init (p : NodeId) : Answering p [] (init p) where
  self_eq := rfl
  coherent := init_coherent p
  le_maxProposed _ hv := absurd hv List.not_mem_nil
  held_replied _ _ hx := nomatch hx

/-- What other members answer is of no concern. -/
theorem Answering.reply_of_other (h : Answering p replies t) {v : Proposal} (hv : v.voter ≠ p) :
    Answering p (replies ++ [v]) t where
  self_eq := h.self_eq
  coherent := h.coherent
  le_maxProposed w hw hp := by
    rcases mem_append_singleton.1 hw with hw | rfl
    · exact h.le_maxProposed w hw hp
    · exact absurd hp hv
  held_replied id x hx := List.mem_append_left _ (h.held_replied id x hx)

theorem Answering.voter_onAsk (h : Answering p replies t) (ask : Ask) :
    (t.onAsk ask).1.voter = p := (self_onAsk t ask).1.trans h.self_eq

theorem Answering.onAsk (h : Answering p replies t) (ask : Ask) :
    Answering p (replies ++ [(t.onAsk ask).1]) (t.onAsk ask).2 := by
  cases hx : t.held? ask.id with
  | some x =>
    rw [onAsk_of_held hx]
    refine ⟨h.self_eq, h.coherent, fun v hv hp => ?_, fun id y hy => ?_⟩
    · rcases mem_append_singleton.1 hv with hv | rfl
      · exact h.le_maxProposed v hv hp
      · exact h.coherent.proposed_le ask.id x hx
    · exact List.mem_append_left _ (h.held_replied id y hy)
  | none =>
    rw [h.coherent.onAsk_of_new hx]
    refine ⟨h.self_eq, h.coherent.enlist ask, fun v hv hp => ?_, fun id y hy => ?_⟩
    · rcases mem_append_singleton.1 hv with hv | rfl
      · exact UInt64.le_trans (h.le_maxProposed v hv hp) t.maxProposed_le_nextNumber
      · exact UInt64.le_refl _
    · rw [h.coherent.held?_enlist] at hy
      rw [mem_append_singleton]
      split at hy
      · rename_i hid
        cases hy
        rw [hid, h.self_eq]
        exact Or.inr rfl
      · exact Or.inl (h.held_replied id y hy)

/-- An answer repeats an earlier one, or has a number that the member has not used. -/
theorem Answering.onAsk_mem_or_lt (h : Answering p replies t) {ask : Ask}
    (hleft : (t.onAsk ask).1.number ≠ 18446744073709551615) :
    (t.onAsk ask).1 ∈ replies ∨ ∀ v ∈ replies, v.voter = p → v.number < (t.onAsk ask).1.number := by
  cases hx : t.held? ask.id with
  | some x =>
    rw [onAsk_of_held hx, h.self_eq]
    exact Or.inl (h.held_replied ask.id x hx)
  | none =>
    rw [h.coherent.onAsk_of_new hx] at hleft ⊢
    exact Or.inr fun v hv hp =>
      UInt64.lt_of_le_of_lt (h.le_maxProposed v hv hp) (lt_nextNumber hleft).2

theorem Answering.onAgreement (h : Answering p replies t) (a : Agreement) :
    Answering p replies (t.onAgreement a).2 where
  self_eq := (self_onAgreement ..).trans h.self_eq
  coherent := h.coherent.onAgreement a
  le_maxProposed := by
    rw [maxProposed_onAgreement]
    exact h.le_maxProposed
  held_replied id x hx := by
    rw [h.coherent.held?_onAgreement] at hx
    split at hx
    · obtain ⟨y, hy, rfl⟩ := Option.map_eq_some_iff.1 hx
      exact h.held_replied id y hy
    · exact h.held_replied id x hx

theorem Answering.release (h : Answering p replies t) (live : NodeId → Bool) :
    Answering p replies (t.release live).2 := by
  have hr := h.coherent.released live
  refine ⟨hr.self_eq.trans h.self_eq, hr.coherent, ?_, fun id x hx => ?_⟩
  · rw [hr.maxProposed_eq]
    exact h.le_maxProposed
  · exact h.held_replied id x ((hr.held?_iff id x).1 hx).1

/-! ## Numbers given once -/

/-- No member gave one number to two messages. -/
def Apart (replies : List Proposal) : Prop :=
  ∀ v ∈ replies, ∀ w ∈ replies, v.voter = w.voter → v.number = w.number → v.id = w.id

theorem Apart.append_of_mem (h : Apart replies) {r : Proposal} (hr : r ∈ replies) :
    Apart (replies ++ [r]) := by
  have hmem : ∀ v ∈ replies ++ [r], v ∈ replies := by
    intro v hv
    rcases mem_append_singleton.1 hv with hv | rfl
    · exact hv
    · exact hr
  exact fun v hv w hw => h v (hmem v hv) w (hmem w hw)

theorem Apart.append_of_lt (h : Apart replies) {r : Proposal}
    (hr : ∀ v ∈ replies, v.voter = r.voter → v.number < r.number) : Apart (replies ++ [r]) := by
  have hne : ∀ v ∈ replies, v.voter = r.voter → v.number ≠ r.number := fun v hv hvoter hn =>
    UInt64.lt_irrefl r.number (hn ▸ hr v hv hvoter)
  intro v hv w hw hvoter hn
  rw [mem_append_singleton] at hv hw
  rcases hv with hv | hv <;> rcases hw with hw | hw
  · exact h v hv w hw hvoter hn
  · rw [hw] at hvoter hn
    exact absurd hn (hne v hv hvoter)
  · rw [hv] at hvoter hn
    exact absurd hn.symm (hne w hw hvoter.symm)
  · rw [hv, hw]

/-! ## The whole group -/

/-- The members answer with numbers of their own, and ballots and agreements are made of these
    answers. -/
structure Invariant (s : State) : Prop where
  answering : ∀ p, Answering p s.replies (s.members p).sequencer
  apart : Apart s.replies
  counted : ∀ b ∈ s.ballots, ∀ q n, b.numbers.get? q = some n → ⟨q, b.id, n⟩ ∈ s.replies
  announced : ∀ a ∈ s.announced, ⟨a.voter, a.id, a.number⟩ ∈ s.replies

variable {s : State}

theorem Invariant.init (nodes : List Node) (capacity : Nat) :
    Invariant (State.init nodes capacity) where
  answering p := Answering.init p
  apart _ hv := absurd hv List.not_mem_nil
  counted _ hb := absurd hb List.not_mem_nil
  announced _ ha := absurd ha List.not_mem_nil

/-- A step at one member that answers nothing. -/
theorem Invariant.setMember (h : Invariant s) {m : Member}
    (hm : Answering p s.replies m.sequencer) : Invariant (s.setMember p m) where
  answering q := by
    by_cases hq : q = p
    · rw [hq, s.members_setMember_self]
      exact hm
    · rw [s.members_setMember_of_ne m hq]
      exact h.answering q
  apart := h.apart
  counted := h.counted
  announced := h.announced

theorem Invariant.ask (h : Invariant s) {ask : Ask}
    (hleft : ((s.members p).sequencer.onAsk ask).1.number ≠ 18446744073709551615) :
    Invariant (s.ask p ask) := by
  have hvoter := (h.answering p).voter_onAsk ask
  refine ⟨fun q => ?_, ?_, fun b hb q n hq => ?_, fun a ha => ?_⟩
  · show Answering q _ ((s.setSequencer p _).members q).sequencer
    unfold State.setSequencer
    by_cases hq : q = p
    · rw [hq, s.members_setMember_self]
      exact (h.answering p).onAsk ask
    · rw [s.members_setMember_of_ne _ hq]
      exact (h.answering q).reply_of_other fun heq => hq (heq.symm.trans hvoter)
  · show Apart (s.replies ++ [_])
    rcases (h.answering p).onAsk_mem_or_lt hleft with hold | hnew
    · exact h.apart.append_of_mem hold
    · exact h.apart.append_of_lt fun v hv hv_eq => hnew v hv (hv_eq.trans hvoter)
  · exact List.mem_append_left _ (h.counted b hb q n hq)
  · exact List.mem_append_left _ (h.announced a ha)

theorem Invariant.count (h : Invariant s) (k : Nat) {v : Proposal} (hv : v ∈ s.replies) :
    Invariant (s.count k v) := by
  refine ⟨h.answering, h.apart, fun b hb q n hq => ?_, h.announced⟩
  obtain ⟨i, hi⟩ := List.mem_iff_getElem?.1 (show b ∈ s.ballots.modify k (·.record v) from hb)
  rw [List.getElem?_modify] at hi
  obtain ⟨c, hc, hb⟩ := Option.map_eq_some_iff.1 hi
  have hmem := List.mem_of_getElem? hc
  split at hb
  -- The ballot that counts the answer has it under the id of its message.
  · subst hb
    rw [Votes.get?_record] at hq
    rw [Votes.id_record]
    split at hq
    · rename_i hvote
      obtain ⟨hid, rfl⟩ := hvote
      cases hq
      rw [← hid]
      exact hv
    · exact h.counted c hmem q n hq
  · subst hb
    exact h.counted c hmem q n hq

theorem Invariant.announce (h : Invariant s) {b : Votes} (hb : b ∈ s.ballots) {a : Agreement}
    (ha : b.agreement = some a) : Invariant { s with announced := s.announced ++ [a] } := by
  refine ⟨h.answering, h.apart, h.counted, fun c hc => ?_⟩
  rcases mem_append_singleton.1 hc with hc | rfl
  · exact h.announced c hc
  · obtain ⟨hid, hvote, -⟩ := Votes.agreement_eq_some ha
    rw [hid]
    exact h.counted b hb _ _ hvote

theorem Invariant.poll (h : Invariant s) (id : MessageId) :
    Invariant { s with ballots := s.ballots ++ [Votes.init id] } := by
  refine ⟨h.answering, h.apart, fun b hb q n hq => ?_, h.announced⟩
  rcases mem_append_singleton.1 hb with hb | rfl
  · exact h.counted b hb q n hq
  · cases hq

theorem Invariant.act (h : Invariant s) {x : Act}
    (hleft : ∀ v ∈ (s.act x).replies, v.number ≠ 18446744073709551615) : Invariant (s.act x) := by
  cases x with
  | ask p ask =>
    unfold State.act at hleft ⊢
    dsimp only at hleft ⊢
    split at hleft
    · rename_i hstopped
      rw [if_pos hstopped]
      exact h
    · rename_i hrun
      rw [if_neg hrun]
      exact h.ask (hleft _ (mem_append_singleton.2 (Or.inr rfl)))
  | release p =>
    unfold State.act
    dsimp only
    split
    · exact h
    · exact h.setMember ((h.answering p).release _)
  | take p a =>
    unfold State.act
    dsimp only
    split
    · exact h.setMember ((h.answering p).onAgreement a)
    · exact h
  | poll id => exact h.poll id
  | count k v =>
    unfold State.act
    dsimp only
    split
    · rename_i hv
      exact h.count k hv
    · exact h
  | announce k =>
    unfold State.act
    dsimp only
    split
    · exact h
    · rename_i a ha
      obtain ⟨b, hb, hagreement⟩ := Option.bind_eq_some_iff.1 ha
      exact h.announce (List.mem_of_getElem? hb) hagreement
  | crash p => exact h.setMember (h.answering p)
  | eject p q =>
    unfold State.act
    dsimp only
    split
    · exact h
    · exact h.setMember (h.answering p)

theorem replies_subset_act (s : State) (x : Act) : s.replies ⊆ (s.act x).replies := by
  cases x with
  | ask p ask =>
    unfold State.act
    dsimp only
    split
    · exact List.Subset.refl _
    · exact List.subset_append_left _ _
  | poll id => exact List.Subset.refl _
  | crash p => exact List.Subset.refl _
  | _ =>
    unfold State.act
    dsimp only
    split <;> exact List.Subset.refl _

theorem invariant_after {nodes : List Node} {capacity : Nat} {acts : List Act}
    (hleft : ∀ v ∈ (after nodes capacity acts).replies, v.number ≠ 18446744073709551615) :
    Invariant (after nodes capacity acts) := by
  induction acts using List.reverseRecOn with
  | nil => exact Invariant.init nodes capacity
  | append_singleton acts x ih =>
    rw [after_append_singleton] at hleft ⊢
    exact Invariant.act (ih fun v hv => hleft v (replies_subset_act _ x hv)) hleft

/-- While no member has answered with the last number of the range, no two messages are agreed with
    the same number and the same process. -/
theorem agreed_places_differ (nodes : List Node) (capacity : Nat) (acts : List Act)
    (hleft : ∀ v ∈ (after nodes capacity acts).replies, v.number ≠ 18446744073709551615) :
    ∀ a ∈ (after nodes capacity acts).announced, ∀ b ∈ (after nodes capacity acts).announced,
      a.id ≠ b.id → (a.number, a.voter) ≠ (b.number, b.voter) := by
  have h := invariant_after hleft
  intro a ha b hb hne heq
  obtain ⟨hnumber, hvoter⟩ := Prod.mk.inj heq
  exact hne (h.apart _ (h.announced a ha) _ (h.announced b hb) hvoter hnumber)

/-- Members `a` and `b` hear of two messages in different orders, and each wins one of them with the
    number 1; `b` is taken out of the group at `a` in between, and `a` crashes at the end. -/
def crossedActs : List Act :=
  [.ask "a" ⟨"a", ⟨1⟩, []⟩, .ask "b" ⟨"b", ⟨2⟩, []⟩, .ask "a" ⟨"b", ⟨2⟩, []⟩,
    .eject "a" "b", .release "a", .ask "b" ⟨"a", ⟨1⟩, []⟩, .ask "b" ⟨"a", ⟨1⟩, []⟩,
    .poll ⟨1⟩, .poll ⟨2⟩, .count 0 ⟨"a", ⟨1⟩, 1⟩, .count 1 ⟨"b", ⟨2⟩, 1⟩, .announce 0, .announce 1,
    .take "b" ⟨"a", ⟨1⟩, 1⟩, .crash "a", .release "b"]

theorem agreed_places_differ_of_crossed :
    let nodes := [⟨"a", .v4 .unspecified 1⟩, ⟨"b", .v4 .unspecified 2⟩]
    (after nodes 1 crossedActs).announced = [⟨"a", ⟨1⟩, 1⟩, ⟨"b", ⟨2⟩, 1⟩] ∧
      ((1 : UInt64), "a") ≠ (1, "b") := by
  intro nodes
  have hleft : ∀ v ∈ (after nodes 1 crossedActs).replies, v.number ≠ 18446744073709551615 := by
    decide +kernel
  have hannounced : (after nodes 1 crossedActs).announced =
      [⟨"a", ⟨1⟩, 1⟩, ⟨"b", ⟨2⟩, 1⟩] := by decide +kernel
  have hdiffer := agreed_places_differ nodes 1 crossedActs hleft
  rw [hannounced] at hdiffer
  exact ⟨hannounced, hdiffer _ (List.mem_cons_self ..) _
    (List.mem_cons_of_mem _ (List.mem_cons_self ..)) (by decide)⟩

end AgreedOrder.Balloting
