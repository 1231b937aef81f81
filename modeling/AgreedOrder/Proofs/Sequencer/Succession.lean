/-
  AgreedOrder.Proofs.Sequencer.Succession

  The deliveries of one sequencer over a whole history, whoever is live at
  each release. Every message is agreed at most once, with a number not below
  the proposal made for it here, and the numbers do not run out: then no
  delivery ever stands before an earlier one, and each is a message that was
  asked for, in the place that was agreed.

    * `History.Admits` — what is asked of each call.
    * `History.Traced` — where all that is held and delivered comes from.
    * `History.delivered_forward` — the order of all deliveries.
-/

import AgreedOrder.Proofs.Sequencer.Ahead
import AgreedOrder.Proofs.Sequencer.History

namespace AgreedOrder.Sequencer.History

/-! ## Admitted calls -/

/-- An agreement is the first one for its message, and if the message is held, not below the
    proposal made for it. -/
def Admits (h : History) : Call → Prop
  | .agreement a =>
    (∀ b ∈ h.agreed, b.id ≠ a.id) ∧
      ∀ m ∈ h.sequencer.messages.get? a.id, m.proposed ≤ a.number
  | .ask _ => True
  | .release _ => True

/-- Each call is admitted where it is made. -/
def AdmitsAll : History → List Call → Prop
  | _, [] => True
  | h, c :: calls => h.Admits c ∧ (h.call c).AdmitsAll calls

instance (h : History) : (c : Call) → Decidable (h.Admits c)
  | .agreement _ => inferInstanceAs (Decidable (_ ∧ _))
  | .ask _ => isTrue trivial
  | .release _ => isTrue trivial

instance decidableAdmitsAll : (h : History) → (calls : List Call) → Decidable (h.AdmitsAll calls)
  | _, [] => isTrue trivial
  | h, c :: calls =>
    have := decidableAdmitsAll (h.call c) calls
    inferInstanceAs (Decidable (h.Admits c ∧ (h.call c).AdmitsAll calls))

theorem admitsAll_append_singleton {h : History} {calls : List Call} {c : Call} :
    h.AdmitsAll (calls ++ [c]) ↔ h.AdmitsAll calls ∧ (calls.foldl call h).Admits c := by
  induction calls generalizing h with
  | nil => exact ⟨fun hc => ⟨trivial, hc.1⟩, fun hc => ⟨hc.2, trivial⟩⟩
  | cons b calls ih =>
    rw [List.cons_append, AdmitsAll, AdmitsAll, ih, and_assoc, List.foldl_cons]

/-! ## Where things come from -/

/-- What is held was asked for and, if it is agreed, agreed in its place; the same holds of what was
    delivered, which is ahead of the rest. -/
structure Traced (h : History) : Prop where
  coherent : h.sequencer.Coherent
  ahead : Ahead h.delivered h.sequencer
  nodup_agreed : (h.agreed.map (·.id)).Nodup
  held_asked : ∀ id x, h.sequencer.held? id = some x →
    ∃ ask ∈ h.asked, ask.id = id ∧ ask.body = x.message.body
  held_agreed : ∀ id x, h.sequencer.held? id = some x → x.message.agreed = true →
    ⟨x.entry.process, id, x.entry.number⟩ ∈ h.agreed
  delivered_asked : ∀ d ∈ h.delivered, ∃ ask ∈ h.asked, ask.id = d.id ∧ ask.body = d.body
  delivered_agreed : ∀ d ∈ h.delivered, ⟨d.process, d.id, d.number⟩ ∈ h.agreed

variable {h : History}

theorem Traced.init (p : NodeId) : Traced (init p) where
  coherent := init_coherent p
  ahead := .init p
  nodup_agreed := List.nodup_nil
  held_asked _ _ hx := nomatch hx
  held_agreed _ _ hx := nomatch hx
  delivered_asked _ hd := absurd hd List.not_mem_nil
  delivered_agreed _ hd := absurd hd List.not_mem_nil

theorem Traced.ask (ht : Traced h) {ask : Ask}
    (hleft : (h.sequencer.onAsk ask).1.number ≠ 18446744073709551615) :
    Traced (h.call (.ask ask)) := by
  have hgrow : ∀ {P : Ask → Prop}, (∃ a ∈ h.asked, P a) → ∃ a ∈ h.asked ++ [ask], P a := by
    rintro P ⟨a, ha, hP⟩
    exact ⟨a, List.mem_append_left _ ha, hP⟩
  unfold History.call
  dsimp only
  cases hx : h.sequencer.held? ask.id with
  | some x =>
    rw [onAsk_of_held hx]
    exact ⟨ht.coherent, ht.ahead, ht.nodup_agreed, fun id y hy => hgrow (ht.held_asked id y hy),
      ht.held_agreed, fun d hd => hgrow (ht.delivered_asked d hd), ht.delivered_agreed⟩
  | none =>
    rw [ht.coherent.onAsk_of_new hx] at hleft ⊢
    refine ⟨ht.coherent.enlist ask, ht.ahead.enlist ht.coherent ask hleft, ht.nodup_agreed,
      fun id y hy => ?_, fun id y hy hagreed => ?_, fun d hd => hgrow (ht.delivered_asked d hd),
      ht.delivered_agreed⟩
    · rw [ht.coherent.held?_enlist] at hy
      split at hy
      · rename_i hid
        cases hy
        exact ⟨ask, mem_append_singleton.2 (Or.inr rfl), hid.symm, rfl⟩
      · exact hgrow (ht.held_asked id y hy)
    · rw [ht.coherent.held?_enlist] at hy
      split at hy
      · cases hy
        cases hagreed
      · exact ht.held_agreed id y hy hagreed

theorem Traced.agreement (ht : Traced h) {a : Agreement} (hadmits : h.Admits (.agreement a)) :
    Traced (h.call (.agreement a)) := by
  obtain ⟨hfirst, hnumber⟩ := hadmits
  have hheld := ht.coherent.held?_onAgreement a
  -- A message without an agreement moves backwards in the queue.
  have hback : ∀ x, h.sequencer.held? a.id = some x → compare x.entry (x.agree a).entry = .lt := by
    intro x hx
    have hopen : x.message.agreed = false := by
      rw [Bool.eq_false_iff]
      exact fun hagreed => hfirst _ (ht.held_agreed a.id x hx hagreed) rfl
    exact (ht.coherent.fits a.id x hx).lt_agree hopen
      (hnumber _ (held?_eq_some_iff.1 hx).1)
  refine ⟨ht.coherent.onAgreement a, ht.ahead.onAgreement ht.coherent hback,
    nodup_map_append_singleton ht.nodup_agreed hfirst, fun id x hx => ?_, fun id x hx hagreed => ?_,
    ht.delivered_asked, fun d hd => List.mem_append_left _ (ht.delivered_agreed d hd)⟩
  · have hx := (hheld id).symm.trans hx
    split at hx
    · obtain ⟨y, hy, rfl⟩ := Option.map_eq_some_iff.1 hx
      exact ht.held_asked id y hy
    · exact ht.held_asked id x hx
  · have hx := (hheld id).symm.trans hx
    split at hx
    · rename_i hid
      obtain ⟨y, -, rfl⟩ := Option.map_eq_some_iff.1 hx
      rw [hid]
      exact mem_append_singleton.2 (Or.inr rfl)
    · exact List.mem_append_left _ (ht.held_agreed id x hx hagreed)

theorem Traced.release (ht : Traced h) (live : NodeId → Bool) :
    Traced (h.call (.release live)) := by
  have hr := ht.coherent.released live
  refine ⟨hr.coherent, ht.ahead.release ht.coherent live, ht.nodup_agreed,
    fun id x hx => ht.held_asked id x ((hr.held?_iff id x).1 hx).1,
    fun id x hx => ht.held_agreed id x ((hr.held?_iff id x).1 hx).1, fun d hd => ?_, fun d hd => ?_⟩
  · rcases List.mem_append.1 hd with hd | hd
    · exact ht.delivered_asked d hd
    · obtain ⟨x, hx, -, -, rfl⟩ := (hr.mem_iff d).1 hd
      exact ht.held_asked _ x hx
  · rcases List.mem_append.1 hd with hd | hd
    · exact ht.delivered_agreed d hd
    · obtain ⟨x, hx, hagreed, -, rfl⟩ := (hr.mem_iff d).1 hd
      exact ht.held_agreed _ x hx hagreed

theorem Traced.call (ht : Traced h) {c : Call} (hadmits : h.Admits c)
    (hleft : ∀ v ∈ (h.call c).proposed, v.number ≠ 18446744073709551615) : Traced (h.call c) := by
  cases c with
  | ask ask => exact ht.ask (hleft _ (mem_append_singleton.2 (Or.inr rfl)))
  | agreement a => exact ht.agreement hadmits
  | release live => exact ht.release live

theorem proposed_subset_call (h : History) (c : Call) : h.proposed ⊆ (h.call c).proposed := by
  cases c with
  | ask ask => exact List.subset_append_left _ _
  | agreement a => exact List.Subset.refl _
  | release live => exact List.Subset.refl _

theorem traced_after {p : NodeId} {calls : List Call} (hadmitted : (init p).AdmitsAll calls)
    (hleft : ∀ v ∈ (after p calls).proposed, v.number ≠ 18446744073709551615) :
    Traced (after p calls) := by
  induction calls using List.reverseRecOn with
  | nil => exact Traced.init p
  | append_singleton calls c ih =>
    obtain ⟨hbefore, hc⟩ := admitsAll_append_singleton.1 hadmitted
    rw [after_append_singleton] at hleft ⊢
    refine Traced.call (ih hbefore fun v hv => ?_) hc hleft
    exact hleft v (proposed_subset_call _ c hv)

/-! ## The order of all deliveries -/

/-- Deliveries in order, each in the one place that was agreed for its message, are of different
    messages. -/
theorem Traced.nodup_delivered (ht : Traced h) : (h.delivered.map (·.id)).Nodup := by
  rw [List.Nodup, List.pairwise_map]
  refine ht.ahead.sorted.imp_of_mem fun {d e} hd he hbefore hid => ?_
  have hagreement := List.inj_on_of_nodup_map ht.nodup_agreed (ht.delivered_agreed d hd)
    (ht.delivered_agreed e he) hid
  injection hagreement with hprocess _ hnumber
  have hkey : d.key = e.key := by
    unfold Delivery.key
    rw [hnumber, hprocess, hid]
  unfold Delivery.Before at hbefore
  rw [hkey] at hbefore
  exact HoldEntry.not_lt_self _ hbefore

/-- If every message is agreed at most once, not below its proposal, and no proposal is the last
    number, then all deliveries stand in the order of number, process and id, each with the body of
    its ask and the place that was agreed, and none is of the same message as another. -/
theorem delivered_forward (p : NodeId) (calls : List Call)
    (hadmitted : (init p).AdmitsAll calls)
    (hleft : ∀ v ∈ (after p calls).proposed, v.number ≠ 18446744073709551615) :
    let h := after p calls
    h.delivered.Pairwise (fun d e => d.order e = .lt) ∧
      (∀ d ∈ h.delivered, (∃ ask ∈ h.asked, ask.id = d.id ∧ ask.body = d.body) ∧
        ⟨d.process, d.id, d.number⟩ ∈ h.agreed) ∧
      (h.delivered.map (·.id)).Nodup := by
  have ht := traced_after hadmitted hleft
  refine ⟨ht.ahead.sorted.imp Delivery.before_iff.1, fun d hd => ⟨?_, ?_⟩, ht.nodup_delivered⟩
  · exact ht.delivered_asked d hd
  · exact ht.delivered_agreed d hd

/-- Two messages tie at number 2: the one that is agreed waits for the other, whose sender leaves,
    and a third one is asked for in between. -/
def tiedCalls : List Call :=
  [.ask ⟨"b", ⟨1⟩, [1]⟩, .ask ⟨"c", ⟨2⟩, [2]⟩, .agreement ⟨"b", ⟨1⟩, 2⟩,
    .release fun _ => true, .ask ⟨"b", ⟨3⟩, [3]⟩, .release fun q => q != "c",
    .agreement ⟨"a", ⟨3⟩, 3⟩, .release fun _ => true]

theorem delivered_forward_of_tied :
    (init "a").AdmitsAll tiedCalls ∧
      (after "a" tiedCalls).delivered.map (·.id) = [⟨1⟩, ⟨3⟩] ∧
      (after "a" tiedCalls).delivered.Pairwise (fun d e => d.order e = .lt) := by
  have hadmitted : (init "a").AdmitsAll tiedCalls := by decide +kernel
  have hleft : ∀ v ∈ (after "a" tiedCalls).proposed, v.number ≠ 18446744073709551615 := by
    decide +kernel
  exact ⟨hadmitted, by decide +kernel, (delivered_forward "a" tiedCalls hadmitted hleft).1⟩

end AgreedOrder.Sequencer.History
