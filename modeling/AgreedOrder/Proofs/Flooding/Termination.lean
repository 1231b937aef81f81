/-
  AgreedOrder.Proofs.Flooding.Termination

  Flooding ends. What is left to do in a state is weighed: a line weighs less
  the further it is, and an envelope that a member has not heard of weighs as
  much as all the lines with which the member may pass it on. Every step takes
  weight away, unless an origin multicasts something new.

    * `State.work` — the weight.
    * `Step.work_lt` — a step that multicasts nothing new takes weight away.
-/

import AgreedOrder.Proofs.Flooding.Covering
import Mathlib.Data.List.Perm.Subperm

namespace AgreedOrder.Flooding

open Json

/-! ## Sums with one changed term -/

/-- The sum of what the members of a list weigh. -/
def total {α : Type} (weigh : α → Nat) : List α → Nat
  | [] => 0
  | a :: l => weigh a + total weigh l

section Total

variable {α : Type} {l : List α} {f f' : α → Nat} {a : α} {c : Nat}

theorem total_append (f : α → Nat) (l₁ l₂ : List α) :
    total f (l₁ ++ l₂) = total f l₁ + total f l₂ := by
  induction l₁ with
  | nil => exact (Nat.zero_add _).symm
  | cons a tl ih =>
    rw [List.cons_append, total, total, ih]
    omega

theorem total_eq_zero (h : ∀ a ∈ l, f a = 0) : total f l = 0 := by
  induction l with
  | nil => rfl
  | cons a tl ih =>
    rw [total, h a (List.mem_cons_self ..), ih fun b hb => h b (List.mem_cons_of_mem _ hb)]

theorem total_congr (h : ∀ b ∈ l, f' b = f b) : total f' l = total f l := by
  induction l with
  | nil => rfl
  | cons b tl ih =>
    rw [total, total, h b (List.mem_cons_self ..),
      ih fun b hb => h b (List.mem_cons_of_mem _ hb)]

theorem total_eq_of_not_mem (h : ∀ b, b ≠ a → f' b = f b) (ha : a ∉ l) :
    total f' l = total f l := by
  apply total_congr
  intro b hb
  exact h b fun heq => ha (heq ▸ hb)

theorem total_add_eq (hnodup : l.Nodup) (h : ∀ b, b ≠ a → f' b = f b) (ha : a ∈ l) :
    total f' l + f a = total f l + f' a := by
  induction l with
  | nil => cases ha
  | cons b tl ih =>
    obtain ⟨hb, htl⟩ := List.nodup_cons.1 hnodup
    rw [total, total]
    rcases List.mem_cons.1 ha with rfl | hmem
    -- The changed term is the first one, and does not come again.
    · have hrest := total_eq_of_not_mem (l := tl) h hb
      omega
    · have hne : b ≠ a := fun heq => hb (heq ▸ hmem)
      have hrest := ih htl hmem
      rw [h b hne]
      omega

/-- A term that grows by so much lets the sum grow by no more. -/
theorem total_le_add (hnodup : l.Nodup) (h : ∀ b, b ≠ a → f' b = f b) (ha : f' a ≤ f a + c) :
    total f' l ≤ total f l + c := by
  by_cases hmem : a ∈ l
  · have hsum := total_add_eq hnodup h hmem
    omega
  · have hsum := total_eq_of_not_mem h hmem
    omega

/-- A term that is there and shrinks by so much lets the sum shrink as much. -/
theorem total_add_le (hnodup : l.Nodup) (hmem : a ∈ l) (h : ∀ b, b ≠ a → f' b = f b)
    (ha : f' a + c ≤ f a) : total f' l + c ≤ total f l := by
  have hsum := total_add_eq hnodup h hmem
  omega

/-- A condition that stops holding of one member of a list, and begins to hold of none. -/
theorem countP_add_one_le {p p' : α → Bool} (ha : a ∈ l) (hle : ∀ x ∈ l, p' x = true → p x = true)
    (hp : p a = true) (hp' : p' a = false) : l.countP p' + 1 ≤ l.countP p := by
  obtain ⟨before, after, rfl⟩ := List.append_of_mem ha
  have hbefore : before.countP p' ≤ before.countP p :=
    List.countP_mono_left fun x hx => hle x (List.mem_append_left _ hx)
  have hafter : after.countP p' ≤ after.countP p :=
    List.countP_mono_left fun x hx => hle x (List.mem_append_right _ (List.mem_cons_of_mem _ hx))
  rw [List.countP_append, List.countP_append, List.countP_cons_of_pos hp,
    List.countP_cons_of_neg (Bool.eq_false_iff.1 hp')]
  omega

end Total

/-! ## Weights -/

variable {g : Layout} {s s' : State}

/-- What a member may still do to one that it knows. A line weighs twice as much in a queue as on
    a link. -/
def linkWork (t : PeerTable) (q : NodeId) : Nat :=
  2 * (t.waiting q).length + (t.isLive q).toNat + (t.hasReader q).toNat

/-- The envelopes that a member has not heard of. -/
def unheard (issued : List (NodeId × Flood)) (m : Member) : Nat :=
  issued.countP fun x => !m.received.contains x.2.id

/-- The weight of a line that is to be put into queues, for each envelope and the whole group. -/
def Layout.share (g : Layout) : Nat := 3 * g.ids.length + 1

/-- What a member may still do. -/
def Layout.memberWork (g : Layout) (issued : List (NodeId × Flood)) (m : Member) : Nat :=
  g.share * unheard issued m + total (linkWork m.peers) g.ids + (!m.stopped).toNat

/-- The weight of a multicast under way. -/
def Sending.work (x : Sending) : Nat := 3 * x.targets.length + 1

/-- The members' part of the weight. -/
def State.membersWork (g : Layout) (s : State) : Nat :=
  total (fun p => g.memberWork s.issued (s.members p)) g.ids

/-- What is left to do. -/
def State.work (g : Layout) (s : State) : Nat :=
  s.membersWork g + total Sending.work s.sendings + s.underWay.length

section OneMember

variable {p : NodeId} {m : Member} {f : Member → Nat} {c : Nat}

/-- What the members of a group weigh in all changes by what one of them does. -/
theorem total_setMember_add (hp : p ∈ g.ids) :
    total (fun q => f ((s.setMember p m).members q)) g.ids + f (s.members p)
      = total (fun q => f (s.members q)) g.ids + f m := by
  have hself : (s.setMember p m).members p = m := Function.update_self ..
  have hother (q : NodeId) (hq : q ≠ p) : f ((s.setMember p m).members q) = f (s.members q) :=
    congrArg f (Function.update_of_ne hq ..)
  have hsum := total_add_eq g.nodup hother hp
  rw [hself] at hsum
  exact hsum

theorem membersWork_setMember_le
    (h : g.memberWork s.issued m ≤ g.memberWork s.issued (s.members p) + c) :
    (s.setMember p m).membersWork g ≤ s.membersWork g + c := by
  apply total_le_add (a := p) g.nodup
  · intro q hq
    show g.memberWork s.issued (Function.update s.members p m q) = _
    rw [Function.update_of_ne hq]
  · show g.memberWork s.issued (Function.update s.members p m p) ≤ _
    rw [Function.update_self]
    exact h

theorem membersWork_setMember_add_le (hp : p ∈ g.ids)
    (h : g.memberWork s.issued m + c ≤ g.memberWork s.issued (s.members p)) :
    (s.setMember p m).membersWork g + c ≤ s.membersWork g := by
  have hsum : (s.setMember p m).membersWork g + g.memberWork s.issued (s.members p)
      = s.membersWork g + g.memberWork s.issued m := total_setMember_add hp
  omega

end OneMember

/-! ## What a step does to the weight -/

section Weights

variable {issued : List (NodeId × Flood)} {m : Member} {q : NodeId} {c : Nat}

/-- The weight of a member whose queues to others, or knowledge of them, have changed. -/
theorem memberWork_peers (g : Layout) (issued : List (NodeId × Flood)) (m : Member)
    (t : PeerTable) :
    g.memberWork issued { m with peers := t } + total (linkWork m.peers) g.ids
      = g.memberWork issued m + total (linkWork t) g.ids := by
  show g.share * unheard issued m + total (linkWork t) g.ids + (!m.stopped).toNat + _ = _
  unfold Layout.memberWork
  omega

theorem linkWork_enqueue (t : PeerTable) (q : NodeId) (line : String) :
    (∀ r, r ≠ q → linkWork (t.enqueue q line).2 r = linkWork t r) ∧
      linkWork (t.enqueue q line).2 q ≤ linkWork t q + 2 := by
  rcases t.enqueue_cases q line with ⟨b, hb, -, heq⟩ | ⟨o, -, heq, -⟩
  · rw [heq]
    constructor
    · intro r hr
      unfold linkWork
      rw [PeerTable.waiting_pushLine hb, if_neg hr, PeerTable.hasReader_pushLine]
      rfl
    · unfold linkWork
      rw [PeerTable.waiting_pushLine hb, if_pos rfl, PeerTable.hasReader_pushLine,
        List.length_append, List.length_singleton]
      show 2 * ((t.waiting q).length + 1) + (t.isLive q).toNat + _ ≤ _
      omega
  · rw [heq]
    exact ⟨fun _ _ => rfl, Nat.le_add_right _ _⟩

theorem memberWork_enqueue_le (m : Member) (q : NodeId) (line : String) :
    g.memberWork issued { m with peers := (m.peers.enqueue q line).2 }
      ≤ g.memberWork issued m + 2 := by
  obtain ⟨hothers, hq⟩ := linkWork_enqueue m.peers q line
  have hsum := total_le_add g.nodup hothers hq
  have hwork := memberWork_peers g issued m (m.peers.enqueue q line).2
  omega

/-- A member that may do less to one that it knows, and as much as before to the others. -/
theorem memberWork_peers_add_le {t : PeerTable} (hq : q ∈ g.ids)
    (hothers : ∀ r, r ≠ q → linkWork t r = linkWork m.peers r)
    (h : linkWork t q + c ≤ linkWork m.peers q) :
    g.memberWork issued { m with peers := t } + c ≤ g.memberWork issued m := by
  have hsum := total_add_le g.nodup hq hothers h
  have hwork := memberWork_peers g issued m t
  omega

theorem memberWork_takeLine {t : PeerTable} {line : String} (hq : q ∈ g.ids)
    (h : m.peers.takeLine q = (some (.line line), t)) :
    g.memberWork issued { m with peers := t } + 2 ≤ g.memberWork issued m := by
  obtain ⟨rest, hwaiting, hpeers, -, hnow, hreader⟩ := PeerTable.takeLine_eq_line h
  have hlive (r : NodeId) : t.isLive r = m.peers.isLive r := by
    show t.peers.contains r = _
    rw [hpeers]
    rfl
  apply memberWork_peers_add_le hq
  · intro r hr
    unfold linkWork
    rw [hnow, if_neg hr, hlive, hreader]
  · unfold linkWork
    rw [hnow, if_pos rfl, hlive, hreader, hwaiting, List.length_cons]
    omega

theorem memberWork_dropReader (hq : q ∈ g.ids) (h : m.peers.hasReader q = true) :
    g.memberWork issued { m with peers := m.peers.dropReader q } + 1 ≤ g.memberWork issued m := by
  apply memberWork_peers_add_le hq
  · intro r hr
    unfold linkWork
    rw [PeerTable.waiting_dropReader, PeerTable.hasReader_dropReader, decide_eq_false hr]
    rfl
  · unfold linkWork
    rw [PeerTable.waiting_dropReader, PeerTable.hasReader_dropReader, decide_eq_true rfl, h]
    exact Nat.le_refl _

theorem memberWork_eject (hq : q ∈ g.ids) (h : m.peers.isLive q = true) :
    g.memberWork issued (m.eject q).2 + 1 ≤ g.memberWork issued m := by
  show g.memberWork issued { m with peers := (m.peers.remove q).2 } + 1 ≤ _
  apply memberWork_peers_add_le hq
  · intro r hr
    unfold linkWork
    rw [PeerTable.waiting_remove, PeerTable.hasReader_remove, PeerTable.isLive_remove,
      decide_eq_false hr]
    rfl
  · unfold linkWork
    rw [PeerTable.waiting_remove, PeerTable.hasReader_remove, PeerTable.isLive_remove,
      decide_eq_true rfl, h]
    simp only [Bool.not_true, Bool.false_and, Bool.toNat_false, Bool.toNat_true]
    omega

theorem memberWork_stop (h : m.stopped = false) :
    g.memberWork issued m.stop + 1 ≤ g.memberWork issued m := by
  show g.share * unheard issued m + total (linkWork m.peers) g.ids + 0 + 1 ≤ _
  unfold Layout.memberWork
  rw [h]
  exact Nat.le_refl _

/-- A member that has heard of an envelope has that much less to do. -/
theorem memberWork_hear {o : NodeId} {f : Flood} (hissued : (o, f) ∈ issued)
    (hnew : f.id ∉ m.received) :
    g.memberWork issued (hear m f) + g.share ≤ g.memberWork issued m := by
  -- The envelope is one of those that were not heard of.
  have hless : unheard issued (hear m f) + 1 ≤ unheard issued m := by
    apply countP_add_one_le hissued
    · intro x _ hx
      simp only [hear, List.contains_eq_mem, List.mem_cons, Bool.not_eq_true',
        decide_eq_false_iff_not, not_or] at hx ⊢
      exact hx.2
    · simp only [List.contains_eq_mem, hnew, decide_false, Bool.not_false]
    · simp only [hear, List.contains_eq_mem, List.mem_cons, true_or, decide_true, Bool.not_true]
  have hshare : g.share * unheard issued (hear m f) + g.share ≤ g.share * unheard issued m := by
    rw [← Nat.mul_succ]
    exact Nat.mul_le_mul_left _ hless
  show g.share * unheard issued (hear m f) + total (linkWork m.peers) g.ids
    + (!m.stopped).toNat + g.share ≤ _
  unfold Layout.memberWork
  omega

/-- Counting a line is no work. -/
theorem memberWork_countForAll (g : Layout) (issued : List (NodeId × Flood)) (m : Member)
    (line : String) :
    g.memberWork issued { m with peers := m.peers.countForAll line } = g.memberWork issued m := by
  have hlink : linkWork (m.peers.countForAll line) = linkWork m.peers := by
    funext q
    unfold linkWork
    rw [PeerTable.isLive_countForAll]
    rfl
  have hwork := memberWork_peers g issued m (m.peers.countForAll line)
  rw [hlink] at hwork
  omega

end Weights

/-! ## Steps -/

theorem sendings_work {l before after : List Sending} {x : Sending} (h : l = before ++ x :: after) :
    total Sending.work l = total Sending.work (before ++ after) + x.work := by
  rw [h, total_append, total_append, total]
  omega

theorem work_enqueue {x : Sending} {q : NodeId} {rest : List NodeId} {before after : List Sending}
    (sending : s.sendings = before ++ x :: after) (next : x.targets = q :: rest) :
    (s.enqueue x q (before ++ { x with targets := rest } :: after)).work g < s.work g := by
  have hmembers : (s.setMember x.node { s.members x.node with
      peers := ((s.members x.node).peers.enqueue q x.line).2 }).membersWork g
        ≤ s.membersWork g + 2 := membersWork_setMember_le (memberWork_enqueue_le _ q x.line)
  have hbefore := sendings_work sending
  have hafter : (total Sending.work (before ++ { x with targets := rest } :: after))
      = total Sending.work (before ++ after) + Sending.work { x with targets := rest } :=
    sendings_work rfl
  have hx : x.work = Sending.work { x with targets := rest } + 3 := by
    show 3 * x.targets.length + 1 = 3 * rest.length + 1 + 3
    rw [next, List.length_cons]
    omega
  show State.membersWork g (s.setMember x.node _)
    + total Sending.work (before ++ { x with targets := rest } :: after) + s.underWay.length < _
  unfold State.work
  omega

theorem work_finish {x : Sending} {before after : List Sending}
    (sending : s.sendings = before ++ x :: after) :
    (s.finish x (before ++ after)).work g < s.work g := by
  have hbefore := sendings_work sending
  have hx : 0 < x.work := Nat.succ_pos _
  show s.membersWork g + total Sending.work (before ++ after) + s.underWay.length < _
  unfold State.work
  omega

theorem work_write {p q : NodeId} {line : String} {peers : PeerTable} (hp : p ∈ g.ids)
    (hq : q ∈ g.ids) (oldest : (s.members p).peers.takeLine q = (some (.line line), peers)) :
    (s.write p q line peers).work g < s.work g := by
  have hmembers : (s.setMember p { s.members p with peers }).membersWork g + 2
      ≤ s.membersWork g := membersWork_setMember_add_le hp (memberWork_takeLine hq oldest)
  show State.membersWork g (s.setMember p { s.members p with peers })
    + total Sending.work s.sendings + (s.underWay ++ [Hop.mk p q line]).length < _
  rw [List.length_append, List.length_singleton]
  unfold State.work
  omega

theorem work_remove {h : Hop} {before after : List Hop}
    (underWay : s.underWay = before ++ h :: after) :
    State.work g { s with underWay := before ++ after } + 1 = s.work g := by
  show s.membersWork g + total Sending.work s.sendings + (before ++ after).length + 1
    = s.membersWork g + total Sending.work s.sendings + s.underWay.length
  rw [underWay, List.length_append, List.length_append, List.length_cons]
  omega

/-- A member that has less to do, with nothing else changed. -/
theorem work_setMember {p : NodeId} {m : Member} (hp : p ∈ g.ids)
    (h : g.memberWork s.issued m + 1 ≤ g.memberWork s.issued (s.members p)) :
    (s.setMember p m).work g < s.work g := by
  have hmembers := membersWork_setMember_add_le hp h
  show (s.setMember p m).membersWork g + total Sending.work s.sendings + s.underWay.length < _
  unfold State.work
  omega

/-- A multicast adds its own weight, which is no more than what an envelope weighs that was not
    heard of. -/
theorem work_startSending {p : NodeId} {body : Bytes} {envelope : Option Flood}
    {targets : List NodeId} (htargets : targets.length ≤ g.ids.length) :
    (s.startSending p body envelope targets).work g ≤ s.work g + g.share := by
  have hmembers : (s.startSending p body envelope targets).membersWork g
      ≤ s.membersWork g + 0 := by
    have hcount := memberWork_countForAll g s.issued (s.members p)
      ((s.members p).frameLine .reliable body)
    exact membersWork_setMember_le (Nat.le_of_eq hcount)
  have hsendings : total Sending.work (s.startSending p body envelope targets).sendings
      = total Sending.work s.sendings + (3 * targets.length + 1) := by
    show total Sending.work (s.sendings ++ [_]) = _
    rw [total_append]
    rfl
  have hunderWay : (s.startSending p body envelope targets).underWay = s.underWay := rfl
  unfold State.work Layout.share
  rw [hsendings, hunderWay]
  omega

/-- A member that hears of an envelope has less to do, also if it passes the envelope on. -/
theorem work_arrive {p q o : NodeId} {f : Flood} {targets : List NodeId}
    (hself : (s.members q).self = q) (hq : q ∈ g.ids) (htargets : targets.length ≤ g.ids.length)
    (hissued : (o, f) ∈ s.issued) : (s.arrive q (lineOf p f) targets).work g ≤ s.work g := by
  by_cases hseen : f.id ∈ (s.members q).received
  · exact Nat.le_of_eq (by rw [arrive_of_seen hseen])
  · have hmembers : (s.setMember q (hear (s.members q) f)).membersWork g + g.share
        ≤ s.membersWork g :=
      membersWork_setMember_add_le hq (memberWork_hear hissued hseen)
    have hhear : (s.setMember q (hear (s.members q) f)).work g + g.share ≤ s.work g := by
      show (s.setMember q (hear (s.members q) f)).membersWork g
        + total Sending.work s.sendings + s.underWay.length + g.share ≤ _
      unfold State.work
      omega
    rw [arrive_of_new hself hseen]
    split
    · exact Nat.le_of_add_right_le hhear
    · have hstart : (State.startSending (s.setMember q (hear (s.members q) f)) q (Record.encode f)
          (some f) targets).work g ≤ _ := work_startSending htargets
      exact Nat.le_trans hstart hhear

/-- A member counts no more members as live than there are. -/
theorem Grouped.length_liveIds (hg : Grouped g s) {p : NodeId} (hp : p ∈ g.ids) :
    (s.members p).peers.liveIds.length ≤ g.ids.length := by
  refine (List.subperm_of_subset (PeerTable.nodup_liveIds _) fun q hq => ?_).length_le
  have hknown := hg.known p q (((s.members p).peers.mem_liveIds q).1 hq)
  exact Layout.Knows.mem ⟨hp, hknown⟩

/-- Every step takes weight away, unless an origin multicasts something new. -/
theorem Step.work_lt (hi : Invariant g s) (h : Step g s s') (hsame : s'.issued = s.issued) :
    s'.work g < s.work g := by
  cases h with
  -- A multicast of something new is what the assumption excludes.
  | multicast =>
    have hlength := congrArg List.length hsame
    rw [State.multicast, List.length_append, List.length_singleton] at hlength
    omega
  | enqueue _ sending next => exact work_enqueue sending next
  | finish _ sending => exact work_finish sending
  | giveUp _ sending => exact work_finish sending
  | @write p q line _ _ oldest =>
    obtain ⟨rest, hwaiting, -⟩ := PeerTable.takeLine_eq_line oldest
    have ha : s.Around p q line := by
      refine Or.inr (Or.inl ?_)
      rw [hwaiting]
      exact List.mem_cons_self ..
    have hknows := (hi.carrying.carried p q line ha).1
    exact work_write hknows.1 hknows.mem oldest
  | @arrive h before after targets running underWay _ order =>
    obtain ⟨p, q, line⟩ := h
    obtain ⟨hknows, ⟨o, f⟩, ho, rfl, -⟩ :=
      hi.carrying.carried p q line ((around_remove underWay).2 (Or.inr rfl))
    -- The line that arrives leaves its link, and brings no more work than it takes away.
    have hless := work_remove (g := g) underWay
    have htargets : targets.length ≤ g.ids.length :=
      order.length_eq.trans_le (hi.grouped.length_liveIds hknows.mem)
    have harrive :
        (State.arrive { s with underWay := before ++ after } q (lineOf p f) targets).work g ≤ _ :=
      work_arrive (hi.grouped.self q) hknows.mem htargets ho
    exact Nat.lt_of_le_of_lt harrive (Nat.lt_of_succ_le (Nat.le_of_eq hless))
  | lose underWay => exact Nat.lt_of_succ_le (Nat.le_of_eq (work_remove underWay))
  | crash member running => exact work_setMember member (memberWork_stop running)
  | dropReader member _ _ reading =>
    have hknows : g.Knows _ _ := ⟨member, hi.grouped.known_reading _ _ reading⟩
    exact work_setMember member (memberWork_dropReader hknows.mem reading)
  | eject member _ _ live =>
    have hknows : g.Knows _ _ := ⟨member, hi.grouped.known _ _ live⟩
    exact work_setMember member (memberWork_eject hknows.mem live)

/-- No run goes on for ever without a new envelope. -/
theorem acc_of_reachable (h : Reachable g s) :
    Acc (fun t s => Step g s t ∧ t.issued = s.issued) s := by
  induction hwork : s.work g using Nat.strongRecOn generalizing s with
  | _ n ih =>
    refine Acc.intro s fun t ⟨hstep, hsame⟩ => ?_
    have hless := hstep.work_lt (invariant_of_reachable h) hsame
    exact ih (t.work g) (hwork ▸ hless) (h.step hstep) rfl

end AgreedOrder.Flooding
