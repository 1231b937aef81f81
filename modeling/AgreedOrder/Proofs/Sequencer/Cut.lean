/-
  AgreedOrder.Proofs.Sequencer.Cut

  A release in terms of the sorted queue. The held entries are put in order and
  cut before the first one that is not agreed and has a live sender. What
  stands before the cut goes, and its agreed entries are delivered in order;
  what stands behind it stays as it is, and a second release finds nothing.

    * `waits`, `settled`, `unsettled` — where the sorted queue is cut.
    * `settled_iff_free` — the cut is where the free messages end.
    * `release_takes_settled` — what goes and what stays.
-/

import AgreedOrder.Proofs.Sequencer.Bookkeeping
import Mathlib.Data.List.Sort

namespace AgreedOrder

/-! ## Sorted entries -/

namespace HoldEntry

theorem mem_sort {e : HoldEntry} {es : List HoldEntry} : e ∈ sort es ↔ e ∈ es := List.mem_mergeSort

/-- Different entries stand in strict order once they are sorted. -/
theorem pairwise_sort {es : List HoldEntry} (h : es.Nodup) : (sort es).Pairwise Precedes := by
  have hsorted : (sort es).Pairwise fun a b => (compare a b).isLE = true := by
    refine List.pairwise_mergeSort (fun a b c => Std.TransCmp.isLE_trans) (fun a b => ?_) es
    have hswap : compare b a = (compare a b).swap := Std.OrientedCmp.eq_swap
    rw [hswap]
    cases compare a b <;> rfl
  have hnodup : (sort es).Nodup := (List.mergeSort_perm es _).nodup_iff.2 h
  refine (hsorted.and hnodup).imp fun {a b} hab => ?_
  obtain ⟨hle, hne⟩ := hab
  exact (precedes_or_eq_or_precedes a b).resolve_right (not_or.2 ⟨hne, fun hba => by
    rw [← compare_eq_lt_iff] at hba
    rw [Std.OrientedCmp.gt_of_lt hba] at hle
    cases hle⟩)

variable {l : List HoldEntry} {e : HoldEntry} (blocks : HoldEntry → Bool)

/-- What stands before the first entry that blocks is what precedes all that block. -/
theorem mem_takeWhile_iff (h : l.Pairwise Precedes) :
    e ∈ l.takeWhile (!blocks ·) ↔ e ∈ l ∧ ∀ b ∈ l, blocks b = true → e.Precedes b := by
  induction l with
  | nil => simp
  | cons a l ih =>
    obtain ⟨ha, hl⟩ := List.pairwise_cons.1 h
    cases hblocks : blocks a with
    -- The first entry blocks itself and all others.
    | true =>
      rw [List.takeWhile_cons_of_neg (by simp [hblocks])]
      refine ⟨nofun, fun ⟨he, hfree⟩ => ?_⟩
      have hea := hfree a (List.mem_cons_self ..) hblocks
      rcases List.mem_cons.1 he with rfl | he
      · exact absurd hea (not_precedes_self _)
      · exact absurd (hea.trans (ha e he)) (not_precedes_self _)
    | false =>
      rw [List.takeWhile_cons_of_pos (by simp [hblocks]), List.mem_cons, ih hl]
      constructor
      · rintro (rfl | ⟨he, hfree⟩)
        · refine ⟨List.mem_cons_self .., fun b hb hbb => ?_⟩
          rcases List.mem_cons.1 hb with rfl | hb
          · rw [hblocks] at hbb
            cases hbb
          · exact ha b hb
        · refine ⟨List.mem_cons_of_mem _ he, fun b hb hbb => ?_⟩
          rcases List.mem_cons.1 hb with rfl | hb
          · rw [hblocks] at hbb
            cases hbb
          · exact hfree b hb hbb
      · rintro ⟨he, hfree⟩
        refine (List.mem_cons.1 he).imp_right fun he => ⟨he, fun b hb => ?_⟩
        exact hfree b (List.mem_cons_of_mem _ hb)

/-- What stands behind is the rest. -/
theorem mem_dropWhile_iff (h : l.Pairwise Precedes) :
    e ∈ l.dropWhile (!blocks ·) ↔ e ∈ l ∧ ¬∀ b ∈ l, blocks b = true → e.Precedes b := by
  have hnodup : l.Nodup := h.nodup
  rw [← List.takeWhile_append_dropWhile (p := (!blocks ·)) (l := l), List.nodup_append] at hnodup
  obtain ⟨-, -, hdisjoint⟩ := hnodup
  have hmem : e ∈ l ↔ e ∈ l.takeWhile (!blocks ·) ∨ e ∈ l.dropWhile (!blocks ·) := by
    rw [← List.mem_append, List.takeWhile_append_dropWhile]
  have htake := mem_takeWhile_iff blocks h (e := e)
  constructor
  · intro he
    refine ⟨hmem.2 (.inr he), fun hfree => ?_⟩
    exact hdisjoint e (htake.2 ⟨hmem.2 (.inr he), hfree⟩) e he rfl
  · rintro ⟨he, hnot⟩
    exact (hmem.1 he).resolve_left fun htaken => hnot (htake.1 htaken).2

end HoldEntry

/-- No entry stands at two slots. -/
theorem HoldQueue.Indexed.nodup_entries {q : HoldQueue} (h : q.Indexed) : q.entries.Nodup := by
  rw [List.nodup_iff_pairwise_ne, List.pairwise_iff_getElem]
  intro i j hi hj hij heq
  have hslot : ∀ k (hk : k < q.entries.length), q.heap[k]? = some q.entries[k] := by
    intro k hk
    unfold entries at hk ⊢
    rw [Array.getElem_toList, Array.getElem?_eq_getElem]
  have := h.slot_eq (hslot i hi) (hslot j hj) (congrArg _ heq)
  omega

namespace Sequencer

variable {s : Sequencer} {live : NodeId → Bool}

/-! ## The cut -/

/-- The held entries, in the order of number, agreed or not, process and id. -/
def inOrder (s : Sequencer) : List HoldEntry := HoldEntry.sort s.hold.entries

/-- An entry is not agreed, and the sender of its message is live. -/
def waits (s : Sequencer) (live : NodeId → Bool) (e : HoldEntry) : Bool :=
  !e.agreed && (s.messages.get? e.id).any fun held => live held.sender

/-- The entries before the first one that waits. -/
def settled (s : Sequencer) (live : NodeId → Bool) : List HoldEntry :=
  s.inOrder.takeWhile (!s.waits live ·)

/-- The first entry that waits, and all behind it. -/
def unsettled (s : Sequencer) (live : NodeId → Bool) : List HoldEntry :=
  s.inOrder.dropWhile (!s.waits live ·)

theorem Coherent.pairwise_inOrder (h : s.Coherent) : s.inOrder.Pairwise HoldEntry.Precedes :=
  HoldEntry.pairwise_sort h.wellFormed.indexed.nodup_entries

theorem Coherent.mem_inOrder_iff (h : s.Coherent) {e : HoldEntry} :
    e ∈ s.inOrder ↔ ∃ x, s.held? e.id = some x ∧ x.entry = e := by
  unfold inOrder
  rw [HoldEntry.mem_sort]
  refine ⟨h.exists_message, ?_⟩
  rintro ⟨x, hx, rfl⟩
  exact (h.wellFormed.indexed.get?_eq_some_iff.1 (held?_eq_some_iff.1 hx).2).1

/-- A held message waits exactly when it blocks. -/
theorem Coherent.waits_iff (h : s.Coherent) {x : Held} (hx : s.held? x.entry.id = some x) :
    s.waits live x.entry = true ↔ s.Blocks live x := by
  have hfits := h.fits _ x hx
  unfold waits
  rw [(held?_eq_some_iff.1 hx).1, hfits.agreed_eq, Bool.and_eq_true, Bool.not_eq_true',
    Option.any_some]
  exact ⟨fun hw => ⟨hx, hw.1, hw.2⟩, fun hb => ⟨hb.isOpen, hb.live_sender⟩⟩

/-- A held message is free exactly when its entry precedes all that wait. -/
theorem Coherent.free_iff (h : s.Coherent) {x : Held} :
    s.Free live x ↔ ∀ b ∈ s.inOrder, s.waits live b = true → x.entry.Precedes b := by
  constructor
  · intro hfree b hb hwaits
    obtain ⟨y, hy, rfl⟩ := h.mem_inOrder_iff.1 hb
    exact HoldEntry.compare_eq_lt_iff.1 (hfree y ((h.waits_iff hy).1 hwaits))
  · intro hall y hy
    rw [HoldEntry.compare_eq_lt_iff]
    exact hall y.entry (h.mem_inOrder_iff.2 ⟨y, hy.held, rfl⟩) ((h.waits_iff hy.held).2 hy)

theorem Coherent.mem_settled_iff (h : s.Coherent) {e : HoldEntry} :
    e ∈ s.settled live ↔ ∃ x, s.held? e.id = some x ∧ x.entry = e ∧ s.Free live x := by
  unfold settled
  rw [HoldEntry.mem_takeWhile_iff _ h.pairwise_inOrder, h.mem_inOrder_iff]
  constructor
  · rintro ⟨⟨x, hx, rfl⟩, hall⟩
    exact ⟨x, hx, rfl, h.free_iff.2 hall⟩
  · rintro ⟨x, hx, rfl, hfree⟩
    exact ⟨⟨x, hx, rfl⟩, h.free_iff.1 hfree⟩

theorem Coherent.mem_unsettled_iff (h : s.Coherent) {e : HoldEntry} :
    e ∈ s.unsettled live ↔ ∃ x, s.held? e.id = some x ∧ x.entry = e ∧ ¬s.Free live x := by
  unfold unsettled
  rw [HoldEntry.mem_dropWhile_iff _ h.pairwise_inOrder, h.mem_inOrder_iff]
  constructor
  · rintro ⟨⟨x, hx, rfl⟩, hall⟩
    exact ⟨x, hx, rfl, fun hfree => hall (h.free_iff.1 hfree)⟩
  · rintro ⟨x, hx, rfl, hnot⟩
    exact ⟨⟨x, hx, rfl⟩, fun hall => hnot (h.free_iff.2 hall)⟩

/-! ## What goes and what stays -/

variable {ds : List Delivery} {s' : Sequencer}

/-- The deliveries are the agreed entries before the cut. -/
theorem Released.map_key_eq (hr : s.Released live ds s') (h : s.Coherent) :
    ds.map Delivery.key = (s.settled live).filter (·.agreed) := by
  have hsettled : (s.settled live).Pairwise HoldEntry.Precedes :=
    h.pairwise_inOrder.sublist (List.takeWhile_sublist _)
  have hdelivered : (ds.map Delivery.key).Pairwise HoldEntry.Precedes :=
    List.pairwise_map.2 (hr.sorted.imp HoldEntry.compare_eq_lt_iff.1)
  refine hdelivered.eq_of_mem_iff (hsettled.filter _) fun e => ?_
  rw [List.mem_map, List.mem_filter, h.mem_settled_iff]
  constructor
  · rintro ⟨d, hd, rfl⟩
    obtain ⟨x, hx, hagreed, hfree, rfl⟩ := (hr.mem_iff d).1 hd
    exact ⟨⟨x, hx, ((h.fits _ x hx).key_delivery hagreed).symm, hfree⟩, rfl⟩
  · rintro ⟨⟨x, hx, rfl, hfree⟩, hagreed⟩
    have hmessage : x.message.agreed = true := (h.fits _ x hx).agreed_eq.symm.trans hagreed
    exact ⟨x.delivery, (hr.mem_iff _).2 ⟨x, hx, hmessage, hfree, rfl⟩,
      (h.fits _ x hx).key_delivery hmessage⟩

theorem Released.inOrder_eq (hr : s.Released live ds s') (h : s.Coherent) :
    s'.inOrder = s.unsettled live := by
  have hunsettled : (s.unsettled live).Pairwise HoldEntry.Precedes :=
    h.pairwise_inOrder.sublist (List.dropWhile_sublist _)
  refine hr.coherent.pairwise_inOrder.eq_of_mem_iff hunsettled fun e => ?_
  rw [hr.coherent.mem_inOrder_iff, h.mem_unsettled_iff]
  simp only [hr.held?_iff, and_assoc, and_comm]

/-- The messages that stay are those behind the cut, as they were. -/
theorem Released.get?_messages_eq (hr : s.Released live ds s') (h : s.Coherent) (id : MessageId) :
    s'.messages.get? id
      = if id ∈ (s.unsettled live).map (·.id) then s.messages.get? id else none := by
  have hmem : id ∈ (s.unsettled live).map (·.id) ↔ ∃ x, s'.held? id = some x := by
    simp only [List.mem_map, h.mem_unsettled_iff, hr.held?_iff]
    constructor
    · rintro ⟨e, ⟨x, hx, -, hnot⟩, rfl⟩
      exact ⟨x, hx, hnot⟩
    · rintro ⟨x, hx, hnot⟩
      have hid := (h.fits id x hx).id_eq
      exact ⟨x.entry, ⟨x, by rw [hid]; exact hx, rfl, hnot⟩, hid⟩
  rw [hr.coherent.get?_messages]
  split
  · rename_i hstays
    obtain ⟨x, hx⟩ := hmem.1 hstays
    rw [hx, Option.map_some, (held?_eq_some_iff.1 ((hr.held?_iff id x).1 hx).1).1]
  · rename_i hgoes
    rw [Option.map_eq_none_iff, Option.eq_none_iff_forall_ne_some]
    exact fun x hx => hgoes (hmem.2 ⟨x, hx⟩)

/-- While nothing is free a release does nothing. -/
theorem Coherent.release_eq_self (h : s.Coherent)
    (hnone : ∀ id x, s.held? id = some x → ¬s.Free live x) : s.release live = ([], s) := by
  rw [release]
  split
  · rfl
  · rename_i e rest hp
    obtain ⟨x, hx, -, -⟩ := h.front hp
    have hopen : x.message.agreed = false := Bool.eq_false_iff.2 fun hagreed =>
      hnone _ x hx (h.free_front hp hx (.inl hagreed)).1
    have hlive : live x.message.sender = true := by
      by_contra hdead
      exact hnone _ x hx (h.free_front hp hx (.inr (Bool.eq_false_iff.2 hdead))).1
    rw [(held?_eq_some_iff.1 hx).1]
    dsimp only
    rw [if_neg (Bool.not_eq_true _ ▸ hopen), if_pos hlive]

/-- After any calls a release takes out what stands before the first entry that waits, and delivers
    the agreed entries of it in order, each with the body of its message. The rest stays as it is,
    and so do the largest numbers. No agreed entry goes without being delivered, and a second
    release under the same view of the group does nothing. -/
theorem History.release_takes_settled (p : NodeId) (calls : List Call) (live : NodeId → Bool) :
    let s := (after p calls).sequencer
    let ds := (s.release live).1
    let s' := (s.release live).2
    (ds.map Delivery.key = (s.settled live).filter (·.agreed) ∧
      ∀ d ∈ ds, ∃ held, s.messages.get? d.id = some held ∧ d.body = held.body) ∧
    (s'.inOrder = s.unsettled live ∧
      ∀ id, s'.messages.get? id
        = if id ∈ (s.unsettled live).map (·.id) then s.messages.get? id else none) ∧
    (s'.maxAgreed = s.maxAgreed ∧ s'.maxProposed = s.maxProposed) ∧
    (∀ e ∈ s.hold.entries, e.agreed = true → e ∈ ds.map Delivery.key ∨ e ∈ s'.hold.entries) ∧
    s'.release live = ([], s') := by
  have h := (numbered_after p calls).coherent
  generalize (after p calls).sequencer = s at h ⊢
  have hr := h.released live
  refine ⟨⟨hr.map_key_eq h, fun d hd => ?_⟩, ⟨hr.inOrder_eq h, hr.get?_messages_eq h⟩,
    ⟨hr.maxAgreed_eq, hr.maxProposed_eq⟩, fun e he hagreed => ?_,
    hr.coherent.release_eq_self fun _ _ => hr.not_free⟩
  · obtain ⟨x, hx, -, -, rfl⟩ := (hr.mem_iff d).1 hd
    exact ⟨x.message, (held?_eq_some_iff.1 hx).1, rfl⟩
  -- An agreed entry stands before the cut or behind it.
  · have hmem : e ∈ s.settled live ++ s.unsettled live := by
      unfold settled unsettled
      rw [List.takeWhile_append_dropWhile]
      exact HoldEntry.mem_sort.2 he
    rw [hr.map_key_eq h, List.mem_filter]
    refine (List.mem_append.1 hmem).imp (fun hbefore => ⟨hbefore, hagreed⟩) fun hbehind => ?_
    rw [← hr.inOrder_eq h] at hbehind
    exact HoldEntry.mem_sort.1 hbehind

end Sequencer

end AgreedOrder
