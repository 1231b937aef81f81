/-
  AgreedOrder.Proofs.Sequencer.Release

  What a release takes from the queue, without its loop. An entry that is not
  agreed and has a live sender blocks; a message is free when every entry that
  blocks is larger than its own. A release takes out exactly the free
  messages, and delivers those of them that are agreed, smallest key first.

    * `Blocks`, `Free` — where the queue is cut.
    * `Coherent.released` — the loop takes exactly the free messages.
-/

import AgreedOrder.Proofs.HoldQueue.Order
import AgreedOrder.Proofs.Sequencer.Coherence

namespace AgreedOrder

/-- The place of a delivery in the order of entries. -/
def Delivery.key (d : Delivery) : HoldEntry := ⟨d.number, true, d.process, d.id⟩

/-- One delivery stands before another in the order of entries. -/
def Delivery.Before (a b : Delivery) : Prop := compare a.key b.key = .lt

theorem Delivery.Before.trans {a b c : Delivery} (hab : a.Before b) (hbc : b.Before c) :
    a.Before c := HoldEntry.lt_trans hab hbc

theorem Delivery.Before.not_symm {a b : Delivery} (h : a.Before b) : ¬b.Before a :=
  HoldEntry.not_lt_of_lt h

theorem Delivery.not_before_self (a : Delivery) : ¬a.Before a := HoldEntry.not_lt_self a.key

instance : Std.Irrefl Delivery.Before := ⟨Delivery.not_before_self⟩

instance : Std.Antisymm Delivery.Before := ⟨fun _ _ hab hba => absurd hba hab.not_symm⟩

/-- Deliveries are ordered by number, then by the process whose proposal won, then by id. -/
def Delivery.order : Delivery → Delivery → Ordering :=
  compareLex (compareOn number) (compareLex (compareOn process) (compareOn id))

theorem Delivery.before_iff {d e : Delivery} : d.Before e ↔ order d e = .lt := by
  have hkey : compare d.key e.key = order d e := by
    rw [HoldEntry.compare_def]
    unfold HoldEntry.order order compareLex compareOn
    show (compare d.number e.number).then ((compare true true).then _) = _
    rw [Std.ReflOrd.compare_self]
    rfl
  rw [Delivery.Before, hkey]

namespace Sequencer

variable {s : Sequencer} {live : NodeId → Bool}

/-! ## What a release leaves alone -/

/-- A release takes out of the queue and of the messages, and touches nothing else. -/
theorem release_congr {α : Type} {f : Sequencer → α}
    (hf : ∀ s hold messages, f { s with hold, messages } = f s) (live : NodeId → Bool)
    (s : Sequencer) : f (s.release live).2 = f s := by
  fun_induction release live s with
  | case1 => rfl
  | case2 s e hold _ _ hm ih => exact ih.trans (hf s hold s.messages)
  | case3 s e hold _ _ held hm hagreed ds s' hrest ih =>
    rw [hrest] at ih
    exact ih.trans (hf s hold _)
  | case4 => rfl
  | case5 s e hold _ _ held hm hopen hdead ih => exact ih.trans (hf s hold _)

@[simp] theorem maxAgreed_release (live : NodeId → Bool) (s : Sequencer) :
    (s.release live).2.maxAgreed = s.maxAgreed :=
  release_congr (f := maxAgreed) (fun _ _ _ => rfl) live s

@[simp] theorem maxProposed_release (live : NodeId → Bool) (s : Sequencer) :
    (s.release live).2.maxProposed = s.maxProposed :=
  release_congr (f := maxProposed) (fun _ _ _ => rfl) live s

@[simp] theorem self_release (live : NodeId → Bool) (s : Sequencer) :
    (s.release live).2.self = s.self :=
  release_congr (f := Sequencer.self) (fun _ _ _ => rfl) live s

/-! ## Where the queue is cut -/

/-- A held message that is not agreed and whose sender is live. -/
structure Blocks (s : Sequencer) (live : NodeId → Bool) (b : Held) : Prop where
  held : s.held? b.entry.id = some b
  isOpen : b.message.agreed = false
  live_sender : live b.message.sender = true

/-- Every message that blocks has a larger entry. -/
def Free (s : Sequencer) (live : NodeId → Bool) (x : Held) : Prop :=
  ∀ b, s.Blocks live b → compare x.entry b.entry = .lt

/-- What is delivered of a held message. -/
def Held.delivery (x : Held) : Delivery :=
  ⟨x.entry.id, x.entry.number, x.entry.process, x.message.body⟩

theorem Held.Fits.key_delivery {x : Held} {id : MessageId} (h : x.Fits id)
    (hagreed : x.message.agreed = true) : x.delivery.key = x.entry := by
  have hentry : x.entry.agreed = true := h.agreed_eq.trans hagreed
  unfold delivery Delivery.key
  rw [← hentry]

theorem Blocks.not_free {b : Held} (hb : s.Blocks live b) : ¬s.Free live b := by
  intro hfree
  have hself := hfree b hb
  rw [Std.ReflOrd.compare_self] at hself
  cases hself

/-! ## Taking the front entry out -/

/-- The sequencer once a message is gone from the table and from the queue. -/
def drop (s : Sequencer) (id : MessageId) (rest : HoldQueue) : Sequencer :=
  { s with hold := rest, messages := s.messages.erase id }

/-- The smallest entry of the queue belongs to a held message, and all others are larger. -/
theorem Coherent.front (h : s.Coherent) {e : HoldEntry} {rest : HoldQueue}
    (hp : s.hold.pop? = some (e, rest)) : ∃ x, s.held? e.id = some x ∧ x.entry = e ∧
      ∀ id y, s.held? id = some y → id ≠ e.id → compare e y.entry = .lt := by
  obtain ⟨hout, hmin⟩ := h.wellFormed.pop?_eq_some hp
  have hheld := hout.held
  rw [h.get?_hold] at hheld
  obtain ⟨x, hx, hxe⟩ := Option.map_eq_some_iff.1 hheld
  refine ⟨x, hx, hxe, fun id y hy hne => ?_⟩
  refine hmin id y.entry (held?_eq_some_iff.1 hy).2 fun heq => hne ?_
  rw [← (h.fits id y hy).id_eq, heq]

theorem Coherent.held?_drop (h : s.Coherent) {e : HoldEntry} {rest : HoldQueue}
    (hp : s.hold.pop? = some (e, rest)) (id : MessageId) :
    (s.drop e.id rest).held? id = if id = e.id then none else s.held? id := by
  obtain ⟨hout, -⟩ := h.wellFormed.pop?_eq_some hp
  unfold held? drop
  rw [SortedMap.get?_erase_eq_ite, hout.get?_rest]
  by_cases hid : id = e.id
  · rw [if_pos hid, if_pos hid, if_pos hid]
  · rw [if_neg hid, if_neg hid, if_neg hid]

theorem Coherent.drop (h : s.Coherent) {e : HoldEntry} {rest : HoldQueue}
    (hp : s.hold.pop? = some (e, rest)) : (s.drop e.id rest).Coherent := by
  obtain ⟨hout, -⟩ := h.wellFormed.pop?_eq_some hp
  have hold : ∀ id x, (s.drop e.id rest).held? id = some x → s.held? id = some x := by
    intro id x hx
    rw [h.held?_drop hp] at hx
    split at hx
    · cases hx
    · exact hx
  refine ⟨hout.wellFormed, fun id => ?_, fun id x hx => h.fits id x (hold id x hx),
    fun id x hx => h.proposed_le id x (hold id x hx),
    fun id x hx => h.agreement_le id x (hold id x hx)⟩
  unfold Sequencer.drop
  rw [SortedMap.get?_erase_eq_ite, hout.get?_rest]
  split
  · rfl
  · exact h.isSome_eq id

/-! ## A whole release -/

/-- What a release amounts to. -/
structure Released (s : Sequencer) (live : NodeId → Bool) (ds : List Delivery)
    (s' : Sequencer) : Prop where
  coherent : s'.Coherent
  self_eq : s'.self = s.self
  maxAgreed_eq : s'.maxAgreed = s.maxAgreed
  maxProposed_eq : s'.maxProposed = s.maxProposed
  held?_iff : ∀ id x, s'.held? id = some x ↔ s.held? id = some x ∧ ¬s.Free live x
  mem_iff : ∀ d, d ∈ ds ↔ ∃ x, s.held? x.entry.id = some x ∧ x.message.agreed = true ∧
    s.Free live x ∧ d = x.delivery
  sorted : ds.Pairwise Delivery.Before

/-- Nothing changes while the front entry blocks. -/
theorem Coherent.released_of_blocks (h : s.Coherent) {e : HoldEntry} {rest : HoldQueue}
    (hp : s.hold.pop? = some (e, rest)) {x : Held} (hx : s.held? e.id = some x)
    (hopen : x.message.agreed = false) (hlive : live x.message.sender = true) :
    s.Released live [] s := by
  obtain ⟨x', hx', hentry, hmin⟩ := h.front hp
  rw [hx] at hx'
  cases hx'
  have hblocks : s.Blocks live x := ⟨by rw [hentry]; exact hx, hopen, hlive⟩
  -- The front entry blocks itself and all that is behind it.
  have hnone : ∀ id y, s.held? id = some y → ¬s.Free live y := by
    intro id y hy hfree
    by_cases hid : id = e.id
    · rw [hid, hx] at hy
      cases hy
      exact hblocks.not_free hfree
    · have hlt := hmin id y hy hid
      have hgt := hfree x hblocks
      rw [hentry, Std.OrientedCmp.gt_of_lt hlt] at hgt
      cases hgt
  refine ⟨h, rfl, rfl, rfl, fun id y => ?_, fun d => ?_, List.Pairwise.nil⟩
  · exact ⟨fun hy => ⟨hy, hnone id y hy⟩, fun hy => hy.1⟩
  · constructor
    · intro hd
      cases hd
    · rintro ⟨y, hy, -, hfree, -⟩
      exact absurd hfree (hnone _ y hy)

/-- Nothing blocks a front entry that is agreed or has no live sender, and what blocks others stays
    when it goes. -/
theorem Coherent.free_front (h : s.Coherent) {e : HoldEntry} {rest : HoldQueue}
    (hp : s.hold.pop? = some (e, rest)) {x : Held} (hx : s.held? e.id = some x)
    (hsettled : x.message.agreed = true ∨ live x.message.sender = false) :
    s.Free live x ∧ ∀ y, (s.drop e.id rest).Free live y ↔ s.Free live y := by
  obtain ⟨x', hx', hentry, hmin⟩ := h.front hp
  rw [hx] at hx'
  cases hx'
  -- A settled entry blocks nothing, so what blocks has another id.
  have hother : ∀ b, s.Blocks live b → b.entry.id ≠ e.id := by
    intro b hb hid
    have hbx := hb.held
    rw [hid, hx] at hbx
    cases hbx
    rcases hsettled with hs | hs
    · rw [hb.isOpen] at hs
      cases hs
    · rw [hb.live_sender] at hs
      cases hs
  constructor
  -- The front entry stands before whatever blocks.
  · intro b hb
    rw [hentry]
    exact hmin _ b hb.held (hother b hb)
  · intro y
    -- What blocks is the same with and without the front entry.
    have hblocks : ∀ b, (s.drop e.id rest).Blocks live b ↔ s.Blocks live b := by
      intro b
      constructor
      · intro hb
        have hheld := hb.held
        rw [h.held?_drop hp] at hheld
        split at hheld
        · cases hheld
        · exact ⟨hheld, hb.isOpen, hb.live_sender⟩
      · intro hb
        refine ⟨?_, hb.isOpen, hb.live_sender⟩
        rw [h.held?_drop hp, if_neg (hother b hb)]
        exact hb.held
    unfold Free
    simp only [hblocks]

/-- A front entry that is settled goes, and the release goes on behind it. -/
theorem Coherent.released_of_settled (h : s.Coherent) {e : HoldEntry} {rest : HoldQueue}
    (hp : s.hold.pop? = some (e, rest)) {x : Held} (hx : s.held? e.id = some x)
    (hsettled : x.message.agreed = true ∨ live x.message.sender = false) {ds : List Delivery}
    {s' : Sequencer} (hr : (s.drop e.id rest).Released live ds s') :
    s.Released live (if x.message.agreed then x.delivery :: ds else ds) s' := by
  obtain ⟨hfree, hiff⟩ := h.free_front hp hx hsettled
  obtain ⟨x', hx', hentry, hmin⟩ := h.front hp
  rw [hx] at hx'
  cases hx'
  -- What the rest of the release delivers was held, and was not the front entry.
  have hmem : ∀ d, d ∈ ds ↔ ∃ y, s.held? y.entry.id = some y ∧ y.entry.id ≠ e.id ∧
      y.message.agreed = true ∧ s.Free live y ∧ d = y.delivery := by
    intro d
    rw [hr.mem_iff]
    simp only [h.held?_drop hp, hiff]
    constructor
    · rintro ⟨y, hy, hrest⟩
      split at hy
      · cases hy
      · rename_i hne
        exact ⟨y, hy, hne, hrest⟩
    · rintro ⟨y, hy, hne, hrest⟩
      exact ⟨y, by rw [if_neg hne]; exact hy, hrest⟩
  refine ⟨hr.coherent, hr.self_eq, hr.maxAgreed_eq, hr.maxProposed_eq, fun id y => ?_,
    fun d => ?_, ?_⟩
  -- What is still held
  · rw [hr.held?_iff, hiff, h.held?_drop hp]
    split
    · rename_i hid
      constructor
      · rintro ⟨hn, -⟩
        cases hn
      · rintro ⟨hy, hnot⟩
        rw [hid, hx] at hy
        cases hy
        exact absurd hfree hnot
    · exact Iff.rfl
  -- What is delivered
  · constructor
    · intro hd
      by_cases hd' : d ∈ ds
      · obtain ⟨y, hy, -, hrest⟩ := (hmem d).1 hd'
        exact ⟨y, hy, hrest⟩
      · split at hd
        · rename_i hagreed
          rcases List.mem_cons.1 hd with rfl | hd
          · exact ⟨x, by rw [hentry]; exact hx, hagreed, hfree, rfl⟩
          · exact absurd hd hd'
        · exact absurd hd hd'
    · rintro ⟨y, hy, hagreed, hyfree, rfl⟩
      by_cases hid : y.entry.id = e.id
      · rw [hid, hx] at hy
        cases hy
        rw [if_pos hagreed]
        exact List.mem_cons_self ..
      · have hd : y.delivery ∈ ds := (hmem _).2 ⟨y, hy, hid, hagreed, hyfree, rfl⟩
        split
        · exact List.mem_cons_of_mem _ hd
        · exact hd
  -- The front entry is delivered before the others.
  · split
    · rename_i hagreed
      refine List.pairwise_cons.2 ⟨fun d hd => ?_, hr.sorted⟩
      obtain ⟨y, hy, hne, hyagreed, -, rfl⟩ := (hmem d).1 hd
      unfold Delivery.Before
      rw [(h.fits _ x hx).key_delivery hagreed, (h.fits _ y hy).key_delivery hyagreed, hentry]
      exact hmin _ y hy hne
    · exact hr.sorted

/-- A release takes out exactly the free messages, and delivers those that are agreed in order. -/
theorem Coherent.released (h : s.Coherent) (live : NodeId → Bool) :
    s.Released live (s.release live).1 (s.release live).2 := by
  fun_induction release live s with
  -- Nothing is held.
  | case1 s hnone =>
    have hempty : ∀ id, s.held? id = none := by
      intro id
      have hq := h.get?_hold id
      rw [h.wellFormed.pop?_eq_none_iff.1 hnone id] at hq
      exact Option.map_eq_none_iff.1 hq.symm
    refine ⟨h, rfl, rfl, rfl, fun id x => ?_, fun d => ?_, List.Pairwise.nil⟩
    · simp [hempty]
    · simp [hempty]
  -- The front entry has a message: this cannot be.
  | case2 s e rest hp _ hm =>
    obtain ⟨x, hx, -, -⟩ := h.front hp
    rw [(held?_eq_some_iff.1 hx).1] at hm
    cases hm
  -- The front entry is agreed.
  | case3 s e rest hp _ held hm hagreed ds s' hrest ih =>
    obtain ⟨x, hx, hentry, -⟩ := h.front hp
    have hmessage := message_eq_of_held? hx hm
    have hgo := ih (h.drop hp)
    rw [hrest] at hgo
    have hfront := h.released_of_settled hp hx (Or.inl (by rw [hmessage]; exact hagreed)) hgo
    rw [hmessage, if_pos hagreed] at hfront
    unfold Held.delivery at hfront
    rw [hentry, hmessage] at hfront
    exact hfront
  -- The front entry blocks.
  | case4 s e rest hp _ held hm hopen hlive =>
    obtain ⟨x, hx, -, -⟩ := h.front hp
    have hmessage := message_eq_of_held? hx hm
    subst hmessage
    exact h.released_of_blocks hp hx (by simpa using hopen) hlive
  -- The sender of the front entry has left.
  | case5 s e rest hp _ held hm hopen hdead ih =>
    obtain ⟨x, hx, -, -⟩ := h.front hp
    have hmessage := message_eq_of_held? hx hm
    subst hmessage
    have hfront := h.released_of_settled hp hx (Or.inr (by simpa using hdead)) (ih (h.drop hp))
    rw [if_neg hopen] at hfront
    exact hfront

/-- Nothing that a release leaves behind is free. -/
theorem Released.not_free {ds : List Delivery} {s' : Sequencer} (hr : s.Released live ds s')
    {id : MessageId} {x : Held} (hx : s'.held? id = some x) : ¬s'.Free live x := by
  intro hfree
  obtain ⟨hheld, hnot⟩ := (hr.held?_iff id x).1 hx
  refine hnot fun b hb => hfree b ?_
  -- What blocks is not free, so it stays.
  exact ⟨(hr.held?_iff _ b).2 ⟨hb.held, hb.not_free⟩, hb.isOpen, hb.live_sender⟩

/-- What is free stands before what is left behind. -/
theorem Free.lt_of_not_free {x y : Held} (hx : s.Free live x) (hnot : ¬s.Free live y) :
    compare x.entry y.entry = .lt := by
  obtain ⟨b, hnot⟩ := Classical.not_forall.1 hnot
  obtain ⟨hb, hyb⟩ := Classical.not_imp.1 hnot
  have hxb := hx b hb
  cases hc : compare b.entry y.entry with
  | lt => exact HoldEntry.lt_trans hxb hc
  | eq => rw [← Std.LawfulEqCmp.eq_of_compare hc]; exact hxb
  | gt => exact absurd (Std.OrientedCmp.lt_of_gt hc) hyb

end Sequencer

end AgreedOrder
