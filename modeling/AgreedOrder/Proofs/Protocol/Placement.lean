/-
  AgreedOrder.Proofs.Protocol.Placement

  Where the messages of one member stand. What it holds was asked for and
  answered; what it delivered was agreed, and lies before everything it still
  holds. A new message gets a number above all delivered ones, an agreement
  moves a message only backwards, and a release takes the front: so each of
  the three keeps the order of what was delivered.

    * `Placed` — the relation between a member and what was said.
    * `Placed.enlist`, `Placed.agree`, `Placed.release` — what keeps it.
-/

import AgreedOrder.Proofs.Protocol.Records
import AgreedOrder.Proofs.PeerTable
import AgreedOrder.Proofs.Sequencer.Ahead

namespace AgreedOrder.Protocol

open Sequencer

variable {asked asked' : List Ask} {answered answered' : List Proposal}
  {taken taken' : List (NodeId × Agreement)} {p : NodeId} {m m' : Member}

/-- What a member holds and has delivered, in terms of what was said. -/
structure Placed (asked : List Ask) (answered : List Proposal) (taken : List (NodeId × Agreement))
    (p : NodeId) (m : Member) : Prop where
  self_eq : m.sequencer.self = p
  coherent : m.sequencer.Coherent
  held_asked : ∀ id x, m.sequencer.held? id = some x →
    ∃ a ∈ asked, a.id = id ∧ x.message.body = a.body ∧ x.message.sender = a.sender
  held_answered : ∀ id x, m.sequencer.held? id = some x → ⟨p, id, x.message.proposed⟩ ∈ answered
  held_agreed : ∀ id x, m.sequencer.held? id = some x → x.message.agreed = true →
    (p, ⟨x.entry.process, id, x.entry.number⟩) ∈ taken
  held_open : ∀ id x, m.sequencer.held? id = some x → x.message.agreed = false →
    ∀ a, (p, a) ∈ taken → a.id ≠ id
  taken_le : ∀ a, (p, a) ∈ taken → a.number ≤ m.sequencer.maxAgreed
  delivered_taken : ∀ d ∈ m.released, (p, ⟨d.process, d.id, d.number⟩) ∈ taken
  delivered_asked : ∀ d ∈ m.released, ∃ a ∈ asked, a.id = d.id ∧ d.body = a.body
  before_held : ∀ d ∈ m.released, ∀ id x, m.sequencer.held? id = some x →
    compare d.key x.entry = .lt
  sorted : m.released.Pairwise Delivery.Before
  /-- An answered message is held or delivered, or its sender has left. -/
  kept : ∀ id, Answered answered p id → (∃ x, m.sequencer.held? id = some x) ∨
    (∃ d ∈ m.released, d.id = id) ∨ ∃ a ∈ asked, a.id = id ∧ m.peers.isLive a.sender = false

/-- A member has answered the ask for a message and now neither holds nor has delivered it. -/
structure Discarded (answered : List Proposal) (p : NodeId) (m : Member) (id : MessageId) :
    Prop where
  answered : Answered answered p id
  not_held : m.sequencer.held? id = none
  not_delivered : ∀ d ∈ m.released, d.id ≠ id

theorem Placed.init (p : NodeId) (nodes : List Node) (capacity : Nat) :
    Placed [] [] [] p (Member.init p nodes capacity) where
  self_eq := rfl
  coherent := init_coherent p
  held_asked _ _ hx := nomatch hx
  held_answered _ _ hx := nomatch hx
  held_agreed _ _ hx := nomatch hx
  held_open _ _ hx := nomatch hx
  taken_le _ ha := absurd ha List.not_mem_nil
  delivered_taken _ hd := absurd hd List.not_mem_nil
  delivered_asked _ hd := absurd hd List.not_mem_nil
  before_held _ hd := absurd hd List.not_mem_nil
  sorted := List.Pairwise.nil
  kept _ hid := absurd hid.choose_spec List.not_mem_nil

/-- What other members say and do leaves a member's messages alone. -/
theorem Placed.frame (h : Placed asked answered taken p m) (hasked : ∀ a ∈ asked, a ∈ asked')
    (hanswered : ∀ id n, ⟨p, id, n⟩ ∈ answered' ↔ ⟨p, id, n⟩ ∈ answered)
    (htaken : ∀ a, (p, a) ∈ taken' ↔ (p, a) ∈ taken) (hsequencer : m'.sequencer = m.sequencer)
    (hreleased : m'.released = m.released)
    (hlive : ∀ q, m.peers.isLive q = false → m'.peers.isLive q = false) :
    Placed asked' answered' taken' p m' := by
  refine ⟨?_, ?_, ?_, ?_, ?_, ?_, ?_, ?_, ?_, ?_, ?_, ?_⟩
  all_goals simp only [hsequencer, hreleased, htaken]
  · exact h.self_eq
  · exact h.coherent
  · intro id x hx
    obtain ⟨a, ha, hrest⟩ := h.held_asked id x hx
    exact ⟨a, hasked a ha, hrest⟩
  · intro id x hx
    exact (hanswered _ _).2 (h.held_answered id x hx)
  · exact h.held_agreed
  · exact h.held_open
  · exact h.taken_le
  · exact h.delivered_taken
  · intro d hd
    obtain ⟨a, ha, hrest⟩ := h.delivered_asked d hd
    exact ⟨a, hasked a ha, hrest⟩
  · exact h.before_held
  · exact h.sorted
  -- Only what is said of other members is new, so an answered message stays where it was.
  · rintro id ⟨n, hn⟩
    rcases h.kept id ⟨n, (hanswered _ _).1 hn⟩ with hk | hk | ⟨a, ha, hid, hk⟩
    · exact Or.inl hk
    · exact Or.inr (Or.inl hk)
    · exact Or.inr (Or.inr ⟨a, hasked a ha, hid, hlive _ hk⟩)

/-- Votes and sockets leave a member's messages alone. -/
theorem Placed.congr (h : Placed asked answered taken p m) (hsequencer : m'.sequencer = m.sequencer)
    (hreleased : m'.released = m.released)
    (hlive : ∀ q, m.peers.isLive q = false → m'.peers.isLive q = false) :
    Placed asked answered taken p m' :=
  h.frame (fun _ ha => ha) (fun _ _ => Iff.rfl) (fun _ => Iff.rfl) hsequencer hreleased hlive

/-- What a member has delivered is ahead of what it holds. -/
theorem Placed.ahead (h : Placed asked answered taken p m) : Ahead m.released m.sequencer where
  sorted := h.sorted
  le_maxAgreed d hd := h.taken_le _ (h.delivered_taken d hd)
  before_held := h.before_held

/-! ## A new message -/

theorem Placed.enlist (h : Placed asked answered taken p m) {ask : Ask} (hask : ask ∈ asked)
    (htaken : ∀ a, (p, a) ∈ taken → a.id ≠ ask.id)
    (hleft : m.sequencer.nextNumber ≠ 18446744073709551615) :
    Placed asked (answered ++ [⟨p, ask.id, m.sequencer.nextNumber⟩]) taken p
      { m with sequencer := m.sequencer.enlist ask } := by
  have hheld := h.coherent.held?_enlist ask
  have hahead := h.ahead.enlist h.coherent ask hleft
  refine ⟨h.self_eq, h.coherent.enlist ask, ?_, ?_, ?_, ?_, h.taken_le, h.delivered_taken,
    h.delivered_asked, hahead.before_held, hahead.sorted, ?_⟩
  · intro id x hx
    rw [hheld] at hx
    split at hx
    · rename_i hid
      cases hx
      exact ⟨ask, hask, hid.symm, rfl, rfl⟩
    · exact h.held_asked id x hx
  · intro id x hx
    rw [hheld] at hx
    split at hx
    · rename_i hid
      cases hx
      rw [hid]
      exact List.mem_append_right _ (List.mem_singleton_self _)
    · exact List.mem_append_left _ (h.held_answered id x hx)
  · intro id x hx hagreed
    rw [hheld] at hx
    split at hx
    · cases hx
      cases hagreed
    · exact h.held_agreed id x hx hagreed
  · intro id x hx hopen a ha
    rw [hheld] at hx
    split at hx
    · rename_i hid
      rw [hid]
      exact htaken a ha
    · exact h.held_open id x hx hopen a ha
  · rintro id ⟨n, hn⟩
    by_cases hid : id = ask.id
    · exact Or.inl ⟨_, (hheld id).trans (if_pos hid)⟩
    · rcases h.kept id ⟨n, (answered_append_iff (Or.inr hid)).1 hn⟩ with ⟨x, hx⟩ | hk
      · exact Or.inl ⟨x, by rw [hheld, if_neg hid]; exact hx⟩
      · exact Or.inr hk

/-! ## An agreement -/

theorem Placed.agree (h : Placed asked answered taken p m) {a : Agreement}
    (hfirst : ∀ b, (p, b) ∈ taken → b.id ≠ a.id)
    (hnumber : ∀ n, ⟨p, a.id, n⟩ ∈ answered → n ≤ a.number) :
    Placed asked answered (taken ++ [(p, a)]) p
      { m with sequencer := (m.sequencer.onAgreement a).2 } := by
  have hheld := h.coherent.held?_onAgreement a
  have hsplit : ∀ b, (p, b) ∈ taken ++ [(p, a)] → (p, b) ∈ taken ∨ b = a := by
    intro b hb
    rcases mem_append_singleton.1 hb with hb | heq
    · exact Or.inl hb
    · exact Or.inr (Prod.mk.inj heq).2
  -- A message without an agreement moves backwards in the queue.
  have hback : ∀ x, m.sequencer.held? a.id = some x →
      compare x.entry (x.agree a).entry = .lt := by
    intro x hx
    have hopen : x.message.agreed = false := by
      rw [Bool.eq_false_iff]
      exact fun hagreed => hfirst _ (h.held_agreed a.id x hx hagreed) rfl
    exact (h.coherent.fits a.id x hx).lt_agree hopen (hnumber _ (h.held_answered a.id x hx))
  have hahead := h.ahead.onAgreement h.coherent hback
  -- An agreed message is held as before, but for its place and its mark.
  refine ⟨?_, h.coherent.onAgreement a, ?_, ?_, ?_, ?_, ?_, ?_, h.delivered_asked,
    hahead.before_held, hahead.sorted, ?_⟩
  · exact (self_onAgreement ..).trans h.self_eq
  · intro id x hx
    rw [hheld] at hx
    split at hx
    · obtain ⟨y, hy, rfl⟩ := Option.map_eq_some_iff.1 hx
      exact h.held_asked id y hy
    · exact h.held_asked id x hx
  · intro id x hx
    rw [hheld] at hx
    split at hx
    · obtain ⟨y, hy, rfl⟩ := Option.map_eq_some_iff.1 hx
      exact h.held_answered id y hy
    · exact h.held_answered id x hx
  · intro id x hx hagreed
    rw [hheld] at hx
    split at hx
    · rename_i hid
      obtain ⟨y, -, rfl⟩ := Option.map_eq_some_iff.1 hx
      rw [hid]
      exact List.mem_append_right _ (List.mem_singleton_self _)
    · exact List.mem_append_left _ (h.held_agreed id x hx hagreed)
  · intro id x hx hopen b hb
    rw [hheld] at hx
    split at hx
    · obtain ⟨y, -, rfl⟩ := Option.map_eq_some_iff.1 hx
      cases hopen
    · rename_i hid
      rcases hsplit b hb with hb | rfl
      · exact h.held_open id x hx hopen b hb
      · exact Ne.symm hid
  · intro b hb
    show b.number ≤ (m.sequencer.onAgreement a).2.maxAgreed
    rw [maxAgreed_onAgreement]
    rcases hsplit b hb with hb | rfl
    · exact UInt64.le_trans (h.taken_le b hb) (le_max_left _ _)
    · exact le_max_right _ _
  · intro d hd
    exact List.mem_append_left _ (h.delivered_taken d hd)
  · intro id hid
    rcases h.kept id hid with ⟨x, hx⟩ | hk
    · refine Or.inl ⟨if id = a.id then x.agree a else x, ?_⟩
      show (m.sequencer.onAgreement a).2.held? id = _
      rw [hheld, hx]
      split <;> rfl
    · exact Or.inr hk

/-! ## A release -/

theorem Placed.released (h : Placed asked answered taken p m) :
    m.sequencer.Released m.peers.isLive (m.sequencer.release m.peers.isLive).1
      m.release.sequencer :=
  h.coherent.released _

/-- A release delivers what is held, agreed and free. -/
theorem Placed.mem_released_release (h : Placed asked answered taken p m) {d : Delivery} :
    d ∈ m.release.released ↔ d ∈ m.released ∨ ∃ id x, m.sequencer.held? id = some x ∧
      x.message.agreed = true ∧ m.sequencer.Free m.peers.isLive x ∧ d = x.delivery := by
  show d ∈ m.released ++ (m.sequencer.release m.peers.isLive).1 ↔ _
  rw [List.mem_append, h.released.mem_iff]
  refine or_congr_right ⟨?_, ?_⟩
  · rintro ⟨x, hx⟩
    exact ⟨x.entry.id, x, hx⟩
  · rintro ⟨id, x, hx, hrest⟩
    have hid := (h.coherent.fits id x hx).id_eq
    exact ⟨x, by rw [hid]; exact hx, hrest⟩

theorem Placed.release (h : Placed asked answered taken p m) :
    Placed asked answered taken p m.release := by
  have hr := h.released
  have hahead := h.ahead.release h.coherent m.peers.isLive
  have hheld : ∀ id x, m.release.sequencer.held? id = some x → m.sequencer.held? id = some x :=
    fun id x hx => ((hr.held?_iff id x).1 hx).1
  -- What is still held was held before.
  refine ⟨hr.self_eq.trans h.self_eq, hr.coherent, fun id x hx => h.held_asked id x (hheld id x hx),
    fun id x hx => h.held_answered id x (hheld id x hx),
    fun id x hx => h.held_agreed id x (hheld id x hx),
    fun id x hx => h.held_open id x (hheld id x hx), ?_, ?_, ?_, hahead.before_held, hahead.sorted,
    ?_⟩
  · rw [hr.maxAgreed_eq]
    exact h.taken_le
  -- What is delivered was agreed, and asked for.
  · intro d hd
    rcases h.mem_released_release.1 hd with hd | ⟨id, x, hx, hagreed, -, rfl⟩
    · exact h.delivered_taken d hd
    · have htaken := h.held_agreed id x hx hagreed
      rw [← (h.coherent.fits id x hx).id_eq] at htaken
      exact htaken
  · intro d hd
    rcases h.mem_released_release.1 hd with hd | ⟨id, x, hx, -, -, rfl⟩
    · exact h.delivered_asked d hd
    · obtain ⟨a, ha, hid, hbody, -⟩ := h.held_asked id x hx
      exact ⟨a, ha, hid.trans (h.coherent.fits id x hx).id_eq.symm, hbody⟩
  -- A message that goes is delivered, or its sender has left.
  · intro id hid
    rcases h.kept id hid with ⟨x, hx⟩ | ⟨d, hd, hdid⟩ | hk
    · by_cases hfree : m.sequencer.Free m.peers.isLive x
      · cases hagreed : x.message.agreed with
        | true =>
          refine Or.inr (Or.inl ⟨x.delivery, ?_, (h.coherent.fits id x hx).id_eq⟩)
          exact h.mem_released_release.2 (Or.inr ⟨id, x, hx, hagreed, hfree, rfl⟩)
        | false =>
          obtain ⟨a, ha, haid, -, hsender⟩ := h.held_asked id x hx
          refine Or.inr (Or.inr ⟨a, ha, haid, Bool.eq_false_iff.2 fun hlive => ?_⟩)
          -- With a live sender it would block, and not be free.
          refine Blocks.not_free ⟨?_, hagreed, ?_⟩ hfree
          · rw [(h.coherent.fits id x hx).id_eq]
            exact hx
          · rw [hsender]
            exact hlive
      · exact Or.inl ⟨x, (hr.held?_iff id x).2 ⟨hx, hfree⟩⟩
    · exact Or.inr (Or.inl ⟨d, h.mem_released_release.2 (Or.inl hd), hdid⟩)
    · exact Or.inr (Or.inr hk)

/-- A release discards only messages that no agreement was handed for, and whose sender has
    left. -/
theorem Placed.discarded_release (h : Placed asked answered taken p m) {id : MessageId}
    (hd : Discarded answered p m.release id) : Discarded answered p m id ∨
      (∀ a, (p, a) ∈ taken → a.id ≠ id) ∧
        ∃ a ∈ asked, a.id = id ∧ m.peers.isLive a.sender = false := by
  cases hx : m.sequencer.held? id with
  | none =>
    refine Or.inl ⟨hd.answered, hx, fun d hdm => ?_⟩
    exact hd.not_delivered d (h.mem_released_release.2 (Or.inl hdm))
  | some x =>
    have hopen : x.message.agreed = false := by
      rw [Bool.eq_false_iff]
      intro hagreed
      by_cases hfree : m.sequencer.Free m.peers.isLive x
      · refine hd.not_delivered x.delivery ?_ (h.coherent.fits id x hx).id_eq
        exact h.mem_released_release.2 (Or.inr ⟨id, x, hx, hagreed, hfree, rfl⟩)
      · have hstay := (h.released.held?_iff id x).2 ⟨hx, hfree⟩
        rw [hd.not_held] at hstay
        cases hstay
    refine Or.inr ⟨h.held_open id x hx hopen, ?_⟩
    rcases h.release.kept id hd.answered with ⟨y, hy⟩ | ⟨d, hdm, hdid⟩ | hk
    · rw [hd.not_held] at hy
      cases hy
    · exact absurd hdid (hd.not_delivered d hdm)
    · exact hk

end AgreedOrder.Protocol
