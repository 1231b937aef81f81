/-
  AgreedOrder.Proofs.Sequencer.Ahead

  What a sequencer has delivered stays ahead of all that it holds. A new
  message gets a number above every number agreed, so above every delivered
  one; an agreement that is not below the proposal moves its message only
  backwards, since at equal numbers what is agreed stands behind what is not;
  and a release takes the front of the queue.

    * `Ahead` — the relation of the deliveries to the sequencer.
    * `Ahead.enlist`, `Ahead.onAgreement`, `Ahead.release` — what keeps it.
-/

import AgreedOrder.Proofs.Sequencer.Release

namespace AgreedOrder.Sequencer

variable {s : Sequencer} {ds : List Delivery}

/-- The deliveries are in order, within the largest number agreed, and before all that is held. -/
structure Ahead (ds : List Delivery) (s : Sequencer) : Prop where
  sorted : ds.Pairwise Delivery.Before
  le_maxAgreed : ∀ d ∈ ds, d.number ≤ s.maxAgreed
  before_held : ∀ d ∈ ds, ∀ id x, s.held? id = some x → compare d.key x.entry = .lt

theorem Ahead.init (p : NodeId) : Ahead [] (init p) where
  sorted := List.Pairwise.nil
  le_maxAgreed _ hd := absurd hd List.not_mem_nil
  before_held _ hd := absurd hd List.not_mem_nil

theorem Ahead.enlist (h : Ahead ds s) (hs : s.Coherent) (ask : Ask)
    (hleft : s.nextNumber ≠ 18446744073709551615) : Ahead ds (s.enlist ask) where
  sorted := h.sorted
  le_maxAgreed := h.le_maxAgreed
  before_held d hd id x hx := by
    rw [hs.held?_enlist] at hx
    split at hx
    · cases hx
      exact HoldEntry.lt_of_number_lt
        (UInt64.lt_of_le_of_lt (h.le_maxAgreed d hd) (lt_nextNumber hleft).1)
    · exact h.before_held d hd id x hx

/-- An agreement that is not below the proposal moves a message backwards. -/
theorem Held.Fits.lt_agree {x : Held} {id : MessageId} (h : x.Fits id)
    (hopen : x.message.agreed = false) {a : Agreement} (hle : x.message.proposed ≤ a.number) :
    compare x.entry (x.agree a).entry = .lt := by
  refine HoldEntry.lt_of_open_of_agreed ?_ (h.agreed_eq.trans hopen) rfl
  rw [(h.of_open hopen).1]
  exact hle

theorem Ahead.onAgreement (h : Ahead ds s) (hs : s.Coherent) {a : Agreement}
    (hback : ∀ x, s.held? a.id = some x → compare x.entry (x.agree a).entry = .lt) :
    Ahead ds (s.onAgreement a).2 where
  sorted := h.sorted
  le_maxAgreed d hd := by
    rw [maxAgreed_onAgreement]
    exact UInt64.le_trans (h.le_maxAgreed d hd) (le_max_left _ _)
  before_held d hd id x hx := by
    rw [hs.held?_onAgreement] at hx
    split at hx
    · rename_i hid
      obtain ⟨y, hy, rfl⟩ := Option.map_eq_some_iff.1 hx
      rw [hid] at hy
      exact HoldEntry.lt_trans (h.before_held d hd a.id y hy) (hback y hy)
    · exact h.before_held d hd id x hx

theorem Ahead.release (h : Ahead ds s) (hs : s.Coherent) (live : NodeId → Bool) :
    Ahead (ds ++ (s.release live).1) (s.release live).2 := by
  have hr := hs.released live
  have hkey : ∀ id x, s.held? id = some x → x.message.agreed = true → x.delivery.key = x.entry :=
    fun id x hx => (hs.fits id x hx).key_delivery
  refine ⟨?_, fun d hd => ?_, fun d hd id y hy => ?_⟩
  -- What goes out lies behind what went out before.
  · rw [List.pairwise_append]
    refine ⟨h.sorted, hr.sorted, fun d hd e he => ?_⟩
    obtain ⟨x, hx, hagreed, -, rfl⟩ := (hr.mem_iff e).1 he
    unfold Delivery.Before
    rw [hkey _ x hx hagreed]
    exact h.before_held d hd _ x hx
  · rw [hr.maxAgreed_eq]
    rcases List.mem_append.1 hd with hd | hd
    · exact h.le_maxAgreed d hd
    · obtain ⟨x, hx, hagreed, -, rfl⟩ := (hr.mem_iff d).1 hd
      show x.entry.number ≤ s.maxAgreed
      rw [(hs.fits _ x hx).of_agreed hagreed]
      exact hs.agreement_le _ x hx hagreed
  -- What goes out is free, and what stays is not.
  · obtain ⟨hy, hnot⟩ := (hr.held?_iff id y).1 hy
    rcases List.mem_append.1 hd with hd | hd
    · exact h.before_held d hd id y hy
    · obtain ⟨x, hx, hagreed, hfree, rfl⟩ := (hr.mem_iff d).1 hd
      rw [hkey _ x hx hagreed]
      exact hfree.lt_of_not_free hnot

end AgreedOrder.Sequencer
