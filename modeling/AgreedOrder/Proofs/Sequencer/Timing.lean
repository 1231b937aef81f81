/-
  AgreedOrder.Proofs.Sequencer.Timing

  When a release is made does not matter while all senders are live. A run with
  releases anywhere is compared with the run of the same asks and agreements
  that releases nothing: it has only some deliveries out already, of messages
  that the other still holds, and nothing that comes later is placed before
  them. Two such runs that end with a release have delivered the same.

    * `withoutReleases` — what two runs have in common.
    * `Lags`, `Behind` — a run, and the one that releases nothing.
    * `Behind.ask`, `Behind.agreement`, `Behind.release` — one call.
    * `same_whenever_released` — two runs.
-/

import AgreedOrder.Proofs.Sequencer.Cut
import AgreedOrder.Proofs.Sequencer.Succession

namespace AgreedOrder.Sequencer

/-! ## Releases among the calls -/

def Call.isRelease : Call → Bool
  | .release _ => true
  | _ => false

/-- The call is no release, or one that takes the senders of some asks to be live. -/
def Call.countsLive (asks : List Ask) : Call → Bool
  | .release live => asks.all fun ask => live ask.sender
  | _ => true

/-- The asks and agreements among some calls. -/
def withoutReleases (calls : List Call) : List Call := calls.filter (!·.isRelease)

theorem withoutReleases_of_release {calls : List Call} {c : Call} (h : c.isRelease = true) :
    withoutReleases (calls ++ [c]) = withoutReleases calls := by
  unfold withoutReleases
  rw [List.filter_append, List.filter_singleton, h]
  exact List.append_nil _

theorem withoutReleases_of_input {calls : List Call} {c : Call} (h : c.isRelease = false) :
    withoutReleases (calls ++ [c]) = withoutReleases calls ++ [c] := by
  unfold withoutReleases
  rw [List.filter_append, List.filter_singleton, h]
  rfl

namespace History

variable {h u : History}

/-! ## A run and the one that releases nothing -/

/-- One run holds some of the messages that another one holds, as that one does. The others are
    agreed and delivered, and nothing else is delivered. -/
structure Lags (delivered : List Delivery) (held all : MessageId → Option Held) : Prop where
  kept : ∀ id x, held id = some x → all id = some x
  gone : ∀ id x, all id = some x → held id = none →
    x.message.agreed = true ∧ x.delivery ∈ delivered
  delivered : ∀ d ∈ delivered, ∃ x, all d.id = some x ∧ x.message.agreed = true ∧ x.delivery = d

/-- The second run was given the same asks and agreements and still holds all that it was asked for.
    What the first one does not hold of that is agreed and delivered. -/
structure Behind (h u : History) : Prop
    extends Lags h.delivered h.sequencer.held? u.sequencer.held? where
  coherent : u.sequencer.Coherent
  asked_eq : h.asked = u.asked
  agreed_eq : h.agreed = u.agreed
  proposed_eq : h.proposed = u.proposed
  self_eq : h.sequencer.self = u.sequencer.self
  maxAgreed_eq : h.sequencer.maxAgreed = u.sequencer.maxAgreed
  maxProposed_eq : h.sequencer.maxProposed = u.sequencer.maxProposed
  held_asked : ∀ id x, u.sequencer.held? id = some x →
    ∃ ask ∈ u.asked, ask.id = id ∧ ask.sender = x.message.sender

/-- The same change of a message that both runs hold, or neither, and that is not delivered. -/
theorem Lags.change {ds : List Delivery} {held held' all all' : MessageId → Option Held}
    (hl : Lags ds held all) {id : MessageId} {f : Option Held → Option Held}
    (hother : ∀ d ∈ ds, d.id ≠ id) (hsame : held id = all id)
    (hheld : ∀ a, held' a = if a = id then f (held a) else held a)
    (hall : ∀ a, all' a = if a = id then f (all a) else all a) : Lags ds held' all' := by
  have heq : held' id = all' id := by
    rw [hheld, hall, hsame]
  refine ⟨fun a x hx => ?_, fun a x hx hnone => ?_, fun d hd => ?_⟩
  · by_cases ha : a = id
    · subst ha
      exact heq.symm.trans hx
    · rw [hheld, if_neg ha] at hx
      rw [hall, if_neg ha]
      exact hl.kept a x hx
  · by_cases ha : a = id
    · subst ha
      cases hx.symm.trans (heq.symm.trans hnone)
    · rw [hheld, if_neg ha] at hnone
      rw [hall, if_neg ha] at hx
      exact hl.gone a x hx hnone
  · rw [hall, if_neg (hother d hd)]
    exact hl.delivered d hd

theorem Behind.init (p : NodeId) : Behind (init p) (init p) where
  coherent := init_coherent p
  asked_eq := rfl
  agreed_eq := rfl
  proposed_eq := rfl
  self_eq := rfl
  maxAgreed_eq := rfl
  maxProposed_eq := rfl
  held_asked _ _ hx := nomatch hx
  kept _ _ hx := nomatch hx
  gone _ _ hx := nomatch hx
  delivered _ hd := absurd hd List.not_mem_nil

theorem Behind.nextNumber_eq (hb : Behind h u) :
    h.sequencer.nextNumber = u.sequencer.nextNumber := by
  unfold nextNumber
  rw [hb.maxAgreed_eq, hb.maxProposed_eq]

/-- What is delivered was asked for. -/
theorem Behind.exists_ask (hb : Behind h u) {d : Delivery} (hd : d ∈ h.delivered) :
    ∃ ask ∈ h.asked, ask.id = d.id := by
  obtain ⟨x, hx, -, -⟩ := hb.delivered d hd
  obtain ⟨ask, hask, hid, -⟩ := hb.held_asked d.id x hx
  exact ⟨ask, hb.asked_eq ▸ hask, hid⟩

/-- Both runs hold the same of a message that is not delivered. -/
theorem Behind.held?_eq (hb : Behind h u) {id : MessageId} (hother : ∀ d ∈ h.delivered, d.id ≠ id) :
    h.sequencer.held? id = u.sequencer.held? id := by
  cases hu : u.sequencer.held? id with
  | none =>
    rw [Option.eq_none_iff_forall_ne_some]
    intro x hx
    cases hu.symm.trans (hb.kept id x hx)
  | some x =>
    cases hh : h.sequencer.held? id with
    | none =>
      have hout := (hb.gone id x hu hh).2
      exact absurd (hb.coherent.fits id x hu).id_eq (hother _ hout)
    | some y => exact (hb.kept id y hh).symm.trans hu

/-- Both runs answer an ask for a new message with the same number. -/
theorem Behind.ask (hb : Behind h u) (ht : Traced h) {ask : Ask}
    (hnew : ∀ b ∈ h.asked, b.id ≠ ask.id) :
    Behind (h.call (.ask ask)) (u.call (.ask ask)) := by
  have hother : ∀ d ∈ h.delivered, d.id ≠ ask.id := by
    intro d hd
    obtain ⟨b, hbmem, hid⟩ := hb.exists_ask hd
    exact hid ▸ hnew b hbmem
  have hu : u.sequencer.held? ask.id = none := by
    rw [Option.eq_none_iff_forall_ne_some]
    intro x hx
    obtain ⟨b, hbmem, hid, -⟩ := hb.held_asked ask.id x hx
    exact hnew b (hb.asked_eq ▸ hbmem) hid
  have hsame := hb.held?_eq hother
  have hh : h.sequencer.held? ask.id = none := hsame.trans hu
  have hheldh := ht.coherent.held?_enlist ask
  have hheldu := hb.coherent.held?_enlist ask
  rw [hb.nextNumber_eq] at hheldh
  unfold History.call
  dsimp only
  rw [ht.coherent.onAsk_of_new hh, hb.coherent.onAsk_of_new hu]
  refine ⟨hb.toLags.change (f := fun _ => _) hother hsame hheldh hheldu, hb.coherent.enlist ask,
    congrArg (· ++ [ask]) hb.asked_eq, hb.agreed_eq, ?_, hb.self_eq, hb.maxAgreed_eq,
    hb.nextNumber_eq, fun id x hx => ?_⟩
  · rw [hb.proposed_eq, hb.self_eq, hb.nextNumber_eq]
  · rw [hheldu] at hx
    split at hx
    · rename_i hid
      cases hx
      exact ⟨ask, mem_append_singleton.2 (.inr rfl), hid.symm, rfl⟩
    · obtain ⟨b, hbmem, hb'⟩ := hb.held_asked id x hx
      exact ⟨b, List.mem_append_left _ hbmem, hb'⟩

/-- An agreement that is the first for its message finds it in both runs or in neither. -/
theorem Behind.agreement (hb : Behind h u) (ht : Traced h) {a : Agreement}
    (hfirst : ∀ b ∈ h.agreed, b.id ≠ a.id) :
    Behind (h.call (.agreement a)) (u.call (.agreement a)) := by
  have hother : ∀ d ∈ h.delivered, d.id ≠ a.id := fun d hd => hfirst _ (ht.delivered_agreed d hd)
  have hheldh := ht.coherent.held?_onAgreement a
  have hheldu := hb.coherent.held?_onAgreement a
  refine ⟨hb.toLags.change hother (hb.held?_eq hother) hheldh hheldu,
    hb.coherent.onAgreement a, hb.asked_eq,
    congrArg (· ++ [a]) hb.agreed_eq, hb.proposed_eq, ?_, ?_, ?_, fun id x hx => ?_⟩
  · show (h.sequencer.onAgreement a).2.self = (u.sequencer.onAgreement a).2.self
    rw [self_onAgreement, self_onAgreement, hb.self_eq]
  · show (h.sequencer.onAgreement a).2.maxAgreed = (u.sequencer.onAgreement a).2.maxAgreed
    rw [maxAgreed_onAgreement, maxAgreed_onAgreement, hb.maxAgreed_eq]
  · show (h.sequencer.onAgreement a).2.maxProposed = (u.sequencer.onAgreement a).2.maxProposed
    rw [maxProposed_onAgreement, maxProposed_onAgreement, hb.maxProposed_eq]
  · have hx := (hheldu id).symm.trans hx
    split at hx
    · obtain ⟨y, hy, rfl⟩ := Option.map_eq_some_iff.1 hx
      exact hb.held_asked id y hy
    · exact hb.held_asked id x hx

/-- A release while all senders are live takes out agreed messages only. -/
theorem Behind.release (hb : Behind h u) (ht : Traced h) {live : NodeId → Bool}
    (hlive : ∀ ask ∈ h.asked, live ask.sender = true) :
    Behind (h.call (.release live)) u := by
  have hr := ht.coherent.released live
  have hsender : ∀ id x, h.sequencer.held? id = some x → live x.message.sender = true := by
    intro id x hx
    obtain ⟨ask, hask, -, hfrom⟩ := hb.held_asked id x (hb.kept id x hx)
    rw [← hfrom]
    exact hlive ask (hb.asked_eq ▸ hask)
  refine ⟨⟨fun id x hx => hb.kept id x ((hr.held?_iff id x).1 hx).1, fun id x hx hnone => ?_,
    fun d hd => ?_⟩, hb.coherent, hb.asked_eq, hb.agreed_eq, hb.proposed_eq,
    hr.self_eq.trans hb.self_eq, hr.maxAgreed_eq.trans hb.maxAgreed_eq,
    hr.maxProposed_eq.trans hb.maxProposed_eq, hb.held_asked⟩
  · cases hh : h.sequencer.held? id with
    | none =>
      obtain ⟨hagreed, hout⟩ := hb.gone id x hx hh
      exact ⟨hagreed, List.mem_append_left _ hout⟩
    | some y =>
      have hxy := hb.kept id y hh
      rw [hx] at hxy
      cases hxy
      have hself : h.sequencer.held? x.entry.id = some x := by
        rw [(ht.coherent.fits id x hh).id_eq]
        exact hh
      -- It went because it was free, and what is free is agreed: else it would block itself.
      have hfree : h.sequencer.Free live x := by
        by_contra hnot
        cases ((hr.held?_iff id x).2 ⟨hh, hnot⟩).symm.trans hnone
      have hagreed : x.message.agreed = true := by
        rw [← Bool.not_eq_false]
        exact fun hopen => (Blocks.not_free ⟨hself, hopen, hsender id x hh⟩) hfree
      exact ⟨hagreed, List.mem_append_right _ ((hr.mem_iff _).2 ⟨x, hself, hagreed, hfree, rfl⟩)⟩
  · rcases List.mem_append.1 hd with hd | hd
    · exact hb.delivered d hd
    · obtain ⟨x, hx, hagreed, -, rfl⟩ := (hr.mem_iff d).1 hd
      exact ⟨x, hb.kept _ x hx, hagreed, rfl⟩

/-- An agreement that is admitted in one of the two runs is admitted in the other. -/
theorem Behind.admits (hb : Behind h u) (ht : Traced h) {c : Call} (hc : u.Admits c) :
    h.Admits c := by
  cases c with
  | ask ask => exact trivial
  | release live => exact trivial
  | agreement a =>
    obtain ⟨hfirst, hnumber⟩ := hc
    refine ⟨hb.agreed_eq ▸ hfirst, fun m hm => hnumber m ?_⟩
    rw [Option.mem_def, ht.coherent.get?_messages] at hm
    obtain ⟨x, hx, rfl⟩ := Option.map_eq_some_iff.1 hm
    rw [Option.mem_def, hb.coherent.get?_messages, hb.kept a.id x hx, Option.map_some]

/-! ## Whole runs -/

/-- Asks and agreements such that every message is asked for once, every agreement is admitted, and
    the numbers do not run out. -/
structure Proper (p : NodeId) (inputs : List Call) : Prop where
  asked_once : ((after p inputs).asked.map (·.id)).Nodup
  admitted : (init p).AdmitsAll inputs
  left : ∀ v ∈ (after p inputs).proposed, v.number ≠ 18446744073709551615

theorem asked_subset_call (h : History) (c : Call) : h.asked ⊆ (h.call c).asked := by
  cases c with
  | ask ask => exact List.subset_append_left _ _
  | agreement a => exact List.Subset.refl _
  | release live => exact List.Subset.refl _

theorem Proper.of_append_singleton {p : NodeId} {inputs : List Call} {c : Call}
    (h : Proper p (inputs ++ [c])) : Proper p inputs where
  asked_once := by
    have hnodup := h.asked_once
    rw [after_append_singleton] at hnodup
    cases c with
    | ask ask => exact hnodup.sublist ((List.sublist_append_left _ _).map _)
    | agreement a => exact hnodup
    | release live => exact hnodup
  admitted := (admitsAll_append_singleton.1 h.admitted).1
  left v hv := by
    refine h.left v ?_
    rw [after_append_singleton]
    exact proposed_subset_call _ c hv

/-- One more ask or agreement, in both runs. -/
theorem Behind.call {p : NodeId} {inputs : List Call} {c : Call}
    (hb : Behind h (after p inputs)) (ht : Traced h) (hproper : Proper p (inputs ++ [c]))
    (hc : c.isRelease = false) :
    Traced (h.call c) ∧ Behind (h.call c) ((after p inputs).call c) := by
  have hadmits : h.Admits c := hb.admits ht (admitsAll_append_singleton.1 hproper.admitted).2
  have hbehind : Behind (h.call c) ((after p inputs).call c) := by
    cases c with
    | ask ask =>
      refine hb.ask ht fun b hbmem heq => ?_
      have hnodup := hproper.asked_once
      rw [after_append_singleton] at hnodup
      have hdisjoint := List.nodup_append.1 (List.map_append .. ▸ hnodup)
      refine hdisjoint.2.2 b.id (List.mem_map_of_mem (hb.asked_eq ▸ hbmem)) ask.id ?_ heq
      exact List.mem_singleton_self _
    | agreement a => exact hb.agreement ht hadmits.1
    | release live => cases hc
  refine ⟨ht.call hadmits fun v hv => hproper.left v ?_, hbehind⟩
  rw [after_append_singleton, ← hbehind.proposed_eq]
  exact hv

theorem behind_after {p : NodeId} {asks : List Ask} {calls : List Call}
    (hproper : Proper p (withoutReleases calls))
    (hasks : (after p (withoutReleases calls)).asked ⊆ asks)
    (hlive : ∀ c ∈ calls, c.countsLive asks = true) :
    Traced (after p calls) ∧ Behind (after p calls) (after p (withoutReleases calls)) := by
  induction calls using List.reverseRecOn with
  | nil => exact ⟨Traced.init p, Behind.init p⟩
  | append_singleton calls c ih =>
    have hbefore : ∀ c ∈ calls, c.countsLive asks = true :=
      fun c hc => hlive c (List.mem_append_left _ hc)
    rw [after_append_singleton]
    cases hc : c.isRelease with
    | true =>
      rw [withoutReleases_of_release hc] at hproper hasks ⊢
      obtain ⟨ht, hb⟩ := ih hproper hasks hbefore
      cases c with
      | ask ask => cases hc
      | agreement a => cases hc
      | release live =>
        refine ⟨ht.release live, hb.release ht fun ask hask => ?_⟩
        have hall := hlive _ (mem_append_singleton.2 (.inr rfl))
        exact List.all_eq_true.1 hall ask (hasks (hb.asked_eq ▸ hask))
    | false =>
      rw [withoutReleases_of_input hc] at hproper hasks ⊢
      rw [after_append_singleton] at hasks ⊢
      obtain ⟨ht, hb⟩ := ih hproper.of_append_singleton
        (List.Subset.trans (asked_subset_call _ c) hasks) hbefore
      exact hb.call ht hproper hc

/-! ## Two runs that end with a release -/

/-- Every held message stands at or behind one that is not agreed. -/
def AtRest (h : History) : Prop :=
  ∀ id x, h.sequencer.held? id = some x → ∃ b, h.sequencer.held? b.entry.id = some b ∧
    b.message.agreed = false ∧ ¬compare x.entry b.entry = .lt

theorem atRest_release (hcoherent : h.sequencer.Coherent) (live : NodeId → Bool) :
    AtRest (h.call (.release live)) := by
  intro id x hx
  obtain ⟨b, hb⟩ := Classical.not_forall.1 ((hcoherent.released live).not_free hx)
  obtain ⟨hblocks, hnot⟩ := Classical.not_imp.1 hb
  exact ⟨b, hblocks.held, hblocks.isOpen, hnot⟩

theorem behind_after_release {p : NodeId} {inputs calls : List Call} (live : NodeId → Bool)
    (hproper : Proper p inputs) (hinputs : withoutReleases calls = inputs)
    (hlive : ∀ c ∈ calls ++ [.release live], c.countsLive (after p inputs).asked = true) :
    Traced (after p (calls ++ [.release live])) ∧
      Behind (after p (calls ++ [.release live])) (after p inputs) ∧
      AtRest (after p (calls ++ [.release live])) := by
  have hsame : withoutReleases (calls ++ [.release live]) = inputs :=
    (withoutReleases_of_release rfl).trans hinputs
  subst hsame
  obtain ⟨ht, hb⟩ := behind_after hproper (List.Subset.refl _) hlive
  refine ⟨ht, hb, ?_⟩
  rw [after_append_singleton]
  exact atRest_release (numbered_after p calls).coherent live

variable {h₁ h₂ : History}

/-- What one of two runs has delivered lies before all that is open, so the other one has not held
    it back. -/
theorem Behind.delivered_subset (hb₁ : Behind h₁ u) (ht₁ : Traced h₁) (hb₂ : Behind h₂ u)
    (hrest₂ : AtRest h₂) : ∀ d ∈ h₁.delivered, d ∈ h₂.delivered := by
  intro d hd
  obtain ⟨x, hx, hagreed, rfl⟩ := hb₁.delivered d hd
  cases hh : h₂.sequencer.held? x.delivery.id with
  | none => exact (hb₂.gone _ x hx hh).2
  | some y =>
    have hxy := hb₂.kept _ y hh
    rw [hx] at hxy
    cases hxy
    obtain ⟨b, hb, hopen, hnot⟩ := hrest₂ _ x hh
    have hbu := hb₂.kept _ b hb
    refine absurd ?_ hnot
    rw [← (hb₁.coherent.fits _ x hx).key_delivery hagreed]
    -- What is open in one run is open in both.
    cases hb' : h₁.sequencer.held? b.entry.id with
    | some c =>
      have hbc := hb₁.kept _ c hb'
      rw [hbu] at hbc
      cases hbc
      exact ht₁.ahead.before_held _ hd _ b hb'
    | none =>
      have hsettled := (hb₁.gone _ b hbu hb').1
      rw [hopen] at hsettled
      cases hsettled

theorem Behind.held?_subset (hb₁ : Behind h₁ u) (ht₁ : Traced h₁) (hb₂ : Behind h₂ u)
    (hdelivered : h₁.delivered = h₂.delivered) {id : MessageId} {x : Held}
    (hx : h₁.sequencer.held? id = some x) : h₂.sequencer.held? id = some x := by
  have hxu := hb₁.kept id x hx
  cases hh : h₂.sequencer.held? id with
  | some y =>
    have hyu := hb₂.kept id y hh
    rw [hxu] at hyu
    exact hyu.symm
  -- A message is not both held and delivered.
  | none =>
    obtain ⟨hagreed, hout⟩ := hb₂.gone id x hxu hh
    have hlt := ht₁.ahead.before_held _ (hdelivered ▸ hout) id x hx
    rw [(hb₁.coherent.fits id x hxu).key_delivery hagreed] at hlt
    exact absurd hlt (HoldEntry.not_lt_self _)

end History

/-- Coherent sequencers that hold the same have the same table and the same entries. -/
theorem Coherent.eq_of_held? {s t : Sequencer} (hs : s.Coherent) (ht : t.Coherent)
    (h : ∀ id, s.held? id = t.held? id) : s.messages = t.messages ∧ s.inOrder = t.inOrder := by
  refine ⟨SortedMap.ext_get? fun id => ?_, ?_⟩
  · rw [hs.get?_messages, ht.get?_messages, h]
  · refine hs.pairwise_inOrder.eq_of_mem_iff ht.pairwise_inOrder fun e => ?_
    rw [hs.mem_inOrder_iff, ht.mem_inOrder_iff, h]

/-- Two runs with the same asks and agreements, the senders of which are live for every release,
    have delivered the same and hold the same after a last release, wherever the others were: if
    every message is asked for once and agreed at most once, not below its proposal, and no proposal
    is the last number. -/
theorem History.same_whenever_released (p : NodeId) {inputs calls₁ calls₂ : List Call}
    {live₁ live₂ : NodeId → Bool} (hinputs₁ : withoutReleases calls₁ = inputs)
    (hinputs₂ : withoutReleases calls₂ = inputs)
    (hlive : ∀ c ∈ calls₁ ++ calls₂ ++ [.release live₁, .release live₂],
      c.countsLive (after p inputs).asked = true)
    (hasked : ((after p inputs).asked.map (·.id)).Nodup)
    (hadmitted : (init p).AdmitsAll inputs)
    (hleft : ∀ v ∈ (after p inputs).proposed, v.number ≠ 18446744073709551615) :
    let h₁ := after p (calls₁ ++ [.release live₁])
    let h₂ := after p (calls₂ ++ [.release live₂])
    h₁.delivered = h₂.delivered ∧ h₁.proposed = h₂.proposed ∧
      h₁.sequencer.messages = h₂.sequencer.messages ∧
      h₁.sequencer.inOrder = h₂.sequencer.inOrder ∧
      h₁.sequencer.maxAgreed = h₂.sequencer.maxAgreed ∧
      h₁.sequencer.maxProposed = h₂.sequencer.maxProposed := by
  obtain ⟨ht₁, hb₁, hrest₁⟩ := behind_after_release live₁ ⟨hasked, hadmitted, hleft⟩ hinputs₁
    fun c hc => hlive c (by simp only [List.mem_append, List.mem_cons] at hc ⊢; tauto)
  obtain ⟨ht₂, hb₂, hrest₂⟩ := behind_after_release live₂ ⟨hasked, hadmitted, hleft⟩ hinputs₂
    fun c hc => hlive c (by simp only [List.mem_append, List.mem_cons] at hc ⊢; tauto)
  have hdelivered := ht₁.ahead.sorted.eq_of_mem_iff ht₂.ahead.sorted fun d =>
    ⟨hb₁.delivered_subset ht₁ hb₂ hrest₂ d, hb₂.delivered_subset ht₂ hb₁ hrest₁ d⟩
  have hheld : ∀ id, (after p (calls₁ ++ [.release live₁])).sequencer.held? id
      = (after p (calls₂ ++ [.release live₂])).sequencer.held? id := fun id => Option.ext fun x =>
    ⟨hb₁.held?_subset ht₁ hb₂ hdelivered, hb₂.held?_subset ht₂ hb₁ hdelivered.symm⟩
  obtain ⟨hmessages, hinOrder⟩ := ht₁.coherent.eq_of_held? ht₂.coherent hheld
  exact ⟨hdelivered, hb₁.proposed_eq.trans hb₂.proposed_eq.symm, hmessages, hinOrder,
    hb₁.maxAgreed_eq.trans hb₂.maxAgreed_eq.symm, hb₁.maxProposed_eq.trans hb₂.maxProposed_eq.symm⟩

/-- Two messages tie at number 2, and the one that was agreed first waits for the other; a fourth
    one is never agreed. -/
def History.mixedCalls : List Call :=
  [.ask ⟨"b", ⟨1⟩, [1]⟩, .ask ⟨"c", ⟨2⟩, [2]⟩, .agreement ⟨"b", ⟨1⟩, 2⟩, .ask ⟨"b", ⟨3⟩, [3]⟩,
    .agreement ⟨"a", ⟨2⟩, 2⟩, .agreement ⟨"a", ⟨3⟩, 3⟩, .ask ⟨"c", ⟨4⟩, [4]⟩]

/-- The same with a release after each call. -/
def History.eagerCalls : List Call :=
  mixedCalls.flatMap fun c => [c, .release fun q => q != "d"]

theorem History.same_whenever_released_of_mixed :
    (after "a" (eagerCalls ++ [.release fun _ => true])).delivered.map (·.id) = [⟨2⟩, ⟨1⟩, ⟨3⟩] ∧
      (after "a" (eagerCalls ++ [.release fun _ => true])).delivered
        = (after "a" (mixedCalls ++ [.release fun _ => true])).delivered := by
  have heager : withoutReleases eagerCalls = mixedCalls := rfl
  have hmixed : withoutReleases mixedCalls = mixedCalls := rfl
  have hlive : ∀ c ∈ eagerCalls ++ mixedCalls ++ [.release fun _ => true, .release fun _ => true],
      c.countsLive (after "a" mixedCalls).asked = true := by decide +kernel
  have hasked : ((after "a" mixedCalls).asked.map (·.id)).Nodup := by decide +kernel
  have hadmitted : (init "a").AdmitsAll mixedCalls := by decide +kernel
  have hleft : ∀ v ∈ (after "a" mixedCalls).proposed, v.number ≠ 18446744073709551615 := by
    decide +kernel
  exact ⟨by decide +kernel,
    (same_whenever_released "a" heager hmixed hlive hasked hadmitted hleft).1⟩

end AgreedOrder.Sequencer
