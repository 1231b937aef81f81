/-
  AgreedOrder.Proofs.Protocol.Completeness

  A group in which nobody crashes. At any time two members have delivered the
  same messages up to a point, since neither delivers a message while one with
  a smaller key is still to come; and once nothing is on its way, every member
  has delivered every message and holds none.

    * `Invariant.delivered_or_left` — what delivers a message delivers what
      stands before it.
    * `delivered_prefix_and_complete` — the same messages, and all of them.
-/

import AgreedOrder.Proofs.Envelope
import AgreedOrder.Proofs.Protocol.Quiescence
import AgreedOrder.Proofs.Protocol.TotalOrder

namespace AgreedOrder.Protocol

open Json Sequencer

variable {g : Roster} {s : State}

/-- Of two different deliveries one stands before the other. -/
theorem Invariant.before_or_before (h : Invariant g s) {p q : NodeId} {d e : Delivery}
    (hd : d ∈ s.delivered p) (he : e ∈ s.delivered q) (hne : d ≠ e) : d.Before e ∨ e.Before d := by
  refine HoldEntry.lt_or_lt_of_ne fun hkey => hne ?_
  refine h.delivery_eq hd he ?_
  exact congrArg HoldEntry.id hkey

/-! ## No gaps -/

/-- A message that another member delivered, and that stands before one that this member delivered,
    was delivered by this member too, unless it counts the sender as gone. -/
theorem Invariant.delivered_or_left (h : Invariant g s) {p q : NodeId} (hp : p ∈ g.ids)
    (hrun : s.Running p) {d e : Delivery} (hd : d ∈ s.delivered p) (he : e ∈ s.delivered q)
    (hbefore : e.Before d) :
    e ∈ s.delivered p ∨
      ∃ ask ∈ s.asked, ask.id = e.id ∧ (s.members p).peers.isLive ask.sender = false := by
  have hannounced := (h.announcing.taken_mem q _ ((h.placed q).delivered_taken e he)).2
  obtain ⟨n, hle, hn⟩ := h.decided.covered _ hannounced p hp (Or.inl hrun)
  rcases (h.placed p).kept e.id ⟨n, hn⟩ with hheld | hdelivered | hleft
  · obtain ⟨x, hx⟩ := hheld
    -- A held message stands behind what was delivered, and so behind its own agreement.
    have hlast := (h.placed p).before_held d hd e.id x hx
    have hfits := (h.placed p).coherent.fits e.id x hx
    have hbehind := HoldEntry.lt_trans hbefore hlast
    exfalso
    cases hagreed : x.message.agreed with
    -- Its entry is the one that the other member delivered.
    | true =>
      have htaken := (h.placed p).held_agreed e.id x hx hagreed
      have heq := h.announcing.agreement_eq (h.announcing.taken_mem p _ htaken).2 hannounced rfl
      have hkey : x.entry = e.key := by
        injection heq with hprocess _ hnumber
        rw [← hfits.key_delivery hagreed]
        show HoldEntry.mk x.entry.number true x.entry.process x.entry.id = _
        rw [hprocess, hnumber, hfits.id_eq]
        rfl
      rw [hkey] at hbehind
      exact HoldEntry.not_lt_self _ hbehind
    -- Its proposal was covered by the agreement, which stands behind it.
    | false =>
      have hproposed := h.asking.number_eq ((h.placed p).held_answered e.id x hx) hn
      have hnumber : x.entry.number ≤ e.key.number := by
        rw [(hfits.of_open hagreed).1, hproposed]
        exact hle
      have hahead := HoldEntry.lt_of_open_of_agreed hnumber (hfits.agreed_eq.trans hagreed) rfl
      exact HoldEntry.not_lt_of_lt hahead hbehind
  · obtain ⟨e', he', hid⟩ := hdelivered
    rw [h.delivery_eq he he' hid.symm]
    exact Or.inl he'
  · exact Or.inr hleft

/-- Two sorted lists, each of which has what stands in the other before a member of its own, agree
    up to the end of the shorter one. -/
theorem prefix_or_prefix {l l' : List Delivery} (hl : l.Pairwise Delivery.Before)
    (hl' : l'.Pairwise Delivery.Before)
    (htotal : ∀ d ∈ l, ∀ e ∈ l', d ≠ e → d.Before e ∨ e.Before d)
    (hclosed : ∀ d ∈ l, ∀ e ∈ l', e.Before d → e ∈ l)
    (hclosed' : ∀ e ∈ l', ∀ d ∈ l, d.Before e → d ∈ l') : l <+: l' ∨ l' <+: l := by
  induction l generalizing l' with
  | nil => exact Or.inl (List.nil_prefix ..)
  | cons d l ih =>
    cases l' with
    | nil => exact Or.inr (List.nil_prefix ..)
    | cons e l' =>
      rw [List.pairwise_cons] at hl hl'
      have hd := List.mem_cons_self (a := d) (l := l)
      have he := List.mem_cons_self (a := e) (l := l')
      -- The smaller one of the two heads would stand behind the head of its own list.
      have heq : d = e := by
        by_contra hne
        rcases htotal d hd e he hne with hbefore | hbefore
        · rcases List.mem_cons.1 (hclosed' e he d hd hbefore) with heq | hmem
          · exact hne heq
          · exact hbefore.not_symm (hl'.1 d hmem)
        · rcases List.mem_cons.1 (hclosed d hd e he hbefore) with heq | hmem
          · exact hne heq.symm
          · exact hbefore.not_symm (hl.1 e hmem)
      subst heq
      have hrest := ih hl.2 hl'.2
        (fun a ha b hb => htotal a (List.mem_cons_of_mem _ ha) b (List.mem_cons_of_mem _ hb))
        (fun a ha b hb hba => ?_) (fun b hb a ha hab => ?_)
      · rw [List.prefix_cons_inj, List.prefix_cons_inj]
        exact hrest
      · refine (List.mem_cons.1 (hclosed a (List.mem_cons_of_mem _ ha) b
          (List.mem_cons_of_mem _ hb) hba)).resolve_left fun heq => ?_
        exact Delivery.not_before_self d (heq ▸ hl'.1 b hb)
      · refine (List.mem_cons.1 (hclosed' b (List.mem_cons_of_mem _ hb) a
          (List.mem_cons_of_mem _ ha) hab)).resolve_left fun heq => ?_
        exact Delivery.not_before_self d (heq ▸ hl.1 a ha)

/-- While nobody has crashed, what one member has delivered starts what the other has, or the other
    way round. -/
theorem Invariant.delivered_prefix (h : Invariant g s) (hrun : ∀ q ∈ g.ids, s.Running q)
    (p q : NodeId) : s.delivered p <+: s.delivered q ∨ s.delivered q <+: s.delivered p := by
  -- No sender counts as gone, so there are no gaps.
  have hclosed : ∀ p q, ∀ d ∈ s.delivered p, ∀ e ∈ s.delivered q, e.Before d →
      e ∈ s.delivered p := by
    intro p q d hd e he hbefore
    have hp := (h.announcing.taken_mem p _ ((h.placed p).delivered_taken d hd)).1
    rcases h.delivered_or_left hp (hrun p hp) hd he hbefore with hmem | hleft
    · exact hmem
    · obtain ⟨ask, hask, -, hdead⟩ := hleft
      have hmember := h.asking.sender_mem ask hask
      rw [h.live.isLive_of_running p _ hmember (hrun _ hmember)] at hdead
      cases hdead
  exact prefix_or_prefix (h.placed p).sorted (h.placed q).sorted
    (fun d hd e he hne => h.before_or_before hd he hne) (hclosed p q) (hclosed q p)

/-! ## Everything is delivered -/

/-- An ask carries an encoded message. -/
theorem Step.asked_encode {s' : State} (hs : Step g s s')
    (h : ∀ ask ∈ s.asked, ∃ message : Message, ask.body = Record.encode message) :
    ∀ ask ∈ s'.asked, ∃ message : Message, ask.body = Record.encode message := by
  cases hs with
  | @submit _ _ message =>
    intro ask hask
    rcases mem_append_singleton.1 hask with hask | rfl
    · exact h ask hask
    · refine ⟨message, ?_⟩
      dsimp only
  | takeAsk => exact h
  | takeProposal => exact h
  | goOn => exact h
  | announce => exact h
  | takeAgreement => exact h
  | watch => exact h
  | crash => exact h
  | eject => exact h
  | loseAsk => exact h
  | loseAgreement => exact h
  | dropAsk => exact h
  | dropAgreement => exact h
  | dropProposal => exact h

theorem Reachable.asked_encode (hs : Reachable g s) :
    ∀ ask ∈ s.asked, ∃ message : Message, ask.body = Record.encode message := by
  induction hs with
  | init => exact fun ask hask => absurd hask List.not_mem_nil
  | step _ next ih => exact next.asked_encode ih

/-- A message was sent under an id. -/
def State.Sent (s : State) (id : MessageId) (message : Message) : Prop :=
  ∃ ask ∈ s.asked, ask.id = id ∧ ask.body = Record.encode message

/-- What is delivered reads as the message that was sent. -/
theorem Invariant.decode?_delivery (h : Invariant g s) (hs : Reachable g s) {p : NodeId}
    {d : Delivery} (hd : d ∈ s.delivered p) :
    ∃ message, s.Sent d.id message ∧ Record.decode? d.body = some message := by
  obtain ⟨ask, hask, hid, hbody⟩ := (h.placed p).delivered_asked d hd
  obtain ⟨message, hmessage⟩ := hs.asked_encode ask hask
  refine ⟨message, ⟨ask, hask, hid, hmessage⟩, ?_⟩
  rw [hbody, hmessage, Record.decode?_encode]

/-- In a settled group in which everybody runs, every member has delivered exactly the messages
    that were asked for, with their bodies. -/
theorem Settled.delivered_perm (hs : Settled g s) (h : Progress g s) (hi : Invariant g s)
    (hrun : ∀ q ∈ g.ids, s.Running q) {p : NodeId} (hp : p ∈ g.ids) :
    ((s.delivered p).map fun d => (d.id, d.body)).Perm (s.asked.map fun a => (a.id, a.body)) := by
  have hdelivered : ((s.delivered p).map fun d => (d.id, d.body)).Nodup := by
    refine List.Nodup.of_map Prod.fst ?_
    rw [List.map_map]
    exact hi.nodup_deliveredIds p
  have hasked : (s.asked.map fun a => (a.id, a.body)).Nodup := by
    refine List.Nodup.of_map Prod.fst ?_
    rw [List.map_map]
    exact hi.asking.nodup_ids
  rw [List.perm_ext_iff_of_nodup hdelivered hasked]
  intro x
  constructor
  · intro hx
    obtain ⟨d, hd, rfl⟩ := List.mem_map.1 hx
    obtain ⟨ask, hask, hid, hbody⟩ := (hi.placed p).delivered_asked d hd
    exact List.mem_map.2 ⟨ask, hask, by rw [hid, hbody]⟩
  · intro hx
    obtain ⟨ask, hask, rfl⟩ := List.mem_map.1 hx
    have hsender := hrun _ (hi.asking.sender_mem ask hask)
    obtain ⟨d, hd, hdid⟩ := hs.delivered h hi hask hsender hp (hrun p hp)
    -- The delivery has the body of the one ask under its id.
    obtain ⟨ask', hask', hid, hbody⟩ := (hi.placed p).delivered_asked d hd
    rw [hi.asking.ask_eq hask' hask (hid.trans hdid)] at hbody
    exact List.mem_map.2 ⟨d, hd, by rw [hdid, hbody]⟩

theorem Settled.deliveredIds_perm (hs : Settled g s) (h : Progress g s) (hi : Invariant g s)
    (hrun : ∀ q ∈ g.ids, s.Running q) {p : NodeId} (hp : p ∈ g.ids) :
    (s.deliveredIds p).Perm (s.asked.map (·.id)) := by
  have hperm := (hs.delivered_perm h hi hrun hp).map Prod.fst
  rw [List.map_map, List.map_map] at hperm
  exact hperm

/-- While nobody has crashed and numbers are left, of any two members one has delivered the start
    of what the other has; and once nothing is on its way, every member has delivered every message
    once, as it was sent, in the order of number, winner and id, and holds nothing. -/
theorem delivered_prefix_and_complete (hs : Reachable g s) (hleft : s.NumbersLeft g)
    (hrun : ∀ q ∈ g.ids, s.Running q) :
    (∀ p q, s.delivered p <+: s.delivered q ∨ s.delivered q <+: s.delivered p) ∧
      (s.Quiet g → ∀ p ∈ g.ids,
        (s.deliveredIds p).Nodup ∧ (s.deliveredIds p).Perm (s.asked.map (·.id)) ∧
          (∀ d ∈ s.delivered p, ⟨d.process, d.id, d.number⟩ ∈ s.announced ∧
            ∃ message, s.Sent d.id message ∧ Record.decode? d.body = some message) ∧
          (s.delivered p).Pairwise (fun d e => d.order e = .lt) ∧
          (s.members p).pending = 0) := by
  have hi := hs.invariant hleft
  have h := hs.progress hleft
  refine ⟨hi.delivered_prefix hrun, fun hquiet p hp => ?_⟩
  have hsettled := h.settled_of_running hi hquiet hrun
  refine ⟨hi.nodup_deliveredIds p, hsettled.deliveredIds_perm h hi hrun hp, fun d hd => ⟨?_, ?_⟩,
    ?_, ?_⟩
  · exact (hi.announcing.taken_mem p _ ((hi.placed p).delivered_taken d hd)).2
  · exact hi.decode?_delivery hs hd
  · exact (hi.placed p).sorted.imp Delivery.before_iff.1
  · exact (hi.placed p).coherent.pending_eq_zero_iff.2
      fun id => hsettled.held?_eq_none h hi hp (hrun p hp) id

/-- Members `c` and `a` send a message each. All members hear of them in different orders, and all
    deliver both. -/
def calmActs : List Act :=
  [.submit "c" ⟨1⟩ ⟨"path", [1]⟩, .submit "a" ⟨2⟩ ⟨"path", [2]⟩, .takeAsk "a" ⟨1⟩,
    .takeAsk "a" ⟨2⟩, .takeAsk "b" ⟨2⟩, .takeAsk "b" ⟨1⟩, .takeAsk "c" ⟨1⟩, .takeAsk "c" ⟨2⟩,
    .takeProposal "c" "a" ⟨1⟩, .takeProposal "c" "b" ⟨1⟩, .takeProposal "c" "c" ⟨1⟩, .count "c",
    .takeProposal "a" "c" ⟨2⟩, .takeProposal "a" "b" ⟨2⟩, .takeProposal "a" "a" ⟨2⟩, .count "a",
    .takeAgreement "a" ⟨2⟩, .takeAgreement "a" ⟨1⟩, .takeAgreement "b" ⟨1⟩,
    .takeAgreement "b" ⟨2⟩, .takeAgreement "c" ⟨1⟩, .takeAgreement "c" ⟨2⟩]

theorem delivered_prefix_and_complete_of_calm :
    (run trio calmActs).NumbersLeft trio ∧ (∀ q ∈ trio.ids, (run trio calmActs).Running q) ∧
      (run trio calmActs).Quiet trio ∧ "b" ∈ trio.ids ∧
      ((run trio calmActs).deliveredIds "b").Perm [⟨1⟩, ⟨2⟩] ∧
      ((run trio calmActs).members "b").pending = 0 := by
  have hleft : (run trio calmActs).NumbersLeft trio := by decide +kernel
  have hrun : ∀ q ∈ trio.ids, (run trio calmActs).Running q := by decide +kernel
  have hquiet : (run trio calmActs).Quiet trio := by decide +kernel
  have hasked : (run trio calmActs).asked.map (·.id) = [⟨1⟩, ⟨2⟩] := by decide +kernel
  have hb : "b" ∈ trio.ids := by decide
  obtain ⟨-, hcomplete⟩ :=
    delivered_prefix_and_complete (reachable_run trio calmActs) hleft hrun
  obtain ⟨-, hperm, -, -, hpending⟩ := hcomplete hquiet "b" hb
  rw [hasked] at hperm
  exact ⟨hleft, hrun, hquiet, hb, hperm, hpending⟩

end AgreedOrder.Protocol
