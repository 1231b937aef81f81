/-
  AgreedOrder.Proofs.Protocol.Records

  What was said in a group agrees with what is on its way: an ask is handed
  to a member that has not answered it, no member answers twice, and each
  message has one agreement.

    * `Asking` — the asks and the answers to them.
    * `Announcing` — the agreements.
-/

import AgreedOrder.Proofs.Log
import AgreedOrder.Proofs.Protocol.Handing

namespace AgreedOrder.Protocol

variable {g : Roster} {asked : List Ask} {asks : List (NodeId × Ask)} {answered : List Proposal}
  {announced : List Agreement} {agreements taken : List (NodeId × Agreement)}

/-! ## Asks and answers -/

/-- A member has answered the ask for a message. -/
def Answered (answered : List Proposal) (p : NodeId) (id : MessageId) : Prop :=
  ∃ n, ⟨p, id, n⟩ ∈ answered

/-- Asks have different ids, and each member answers an ask once. -/
structure Asking (g : Roster) (asked : List Ask) (asks : List (NodeId × Ask))
    (answered : List Proposal) : Prop where
  nodup_ids : (asked.map (·.id)).Nodup
  sender_mem : ∀ a ∈ asked, a.sender ∈ g.ids
  handing : Handing g asked asks fun p a => Answered answered p a.id
  voter_mem : ∀ v ∈ answered, v.voter ∈ g.ids
  answered_asked : ∀ v ∈ answered, ∃ a ∈ asked, a.id = v.id
  answered_inj : ∀ v ∈ answered, ∀ w ∈ answered, v.voter = w.voter → v.id = w.id → v = w

theorem Asking.init (g : Roster) : Asking g [] [] [] where
  nodup_ids := List.nodup_nil
  sender_mem _ ha := absurd ha List.not_mem_nil
  handing := ⟨List.nodup_nil, fun _ _ ha => absurd ha List.not_mem_nil,
    fun _ _ ha => absurd ha List.not_mem_nil⟩
  voter_mem _ hv := absurd hv List.not_mem_nil
  answered_asked _ hv := absurd hv List.not_mem_nil
  answered_inj _ hv := absurd hv List.not_mem_nil

theorem Asking.ask_eq (h : Asking g asked asks answered) {a b : Ask} (ha : a ∈ asked)
    (hb : b ∈ asked) (hid : a.id = b.id) : a = b :=
  List.inj_on_of_nodup_map h.nodup_ids ha hb hid

theorem Asking.number_eq (h : Asking g asked asks answered) {p : NodeId} {id : MessageId}
    {n n' : UInt64} (hn : ⟨p, id, n⟩ ∈ answered) (hn' : ⟨p, id, n'⟩ ∈ answered) : n = n' := by
  have heq := h.answered_inj _ hn _ hn' rfl rfl
  injection heq

theorem Asking.sublist (h : Asking g asked asks answered) {asks' : List (NodeId × Ask)}
    (hsub : asks'.Sublist asks) : Asking g asked asks' answered :=
  { h with handing := h.handing.sublist hsub }

theorem Asking.submit (h : Asking g asked asks answered) {ask : Ask} (hsender : ask.sender ∈ g.ids)
    (hfresh : ∀ a ∈ asked, a.id ≠ ask.id) :
    Asking g (asked ++ [ask]) (asks ++ g.ids.map (·, ask)) answered := by
  have hnew : ∀ p, ¬Answered answered p ask.id := by
    rintro p ⟨n, hn⟩
    obtain ⟨a, ha, haid⟩ := h.answered_asked _ hn
    exact hfresh a ha haid
  refine ⟨?_, ?_, h.handing.issue (fun hmem => hfresh ask hmem rfl) hnew, h.voter_mem, ?_,
    h.answered_inj⟩
  · exact nodup_map_append_singleton h.nodup_ids hfresh
  · intro a ha
    rcases List.mem_append.1 ha with ha | ha
    · exact h.sender_mem a ha
    · rw [List.mem_singleton.1 ha]
      exact hsender
  · intro v hv
    obtain ⟨a, ha, hid⟩ := h.answered_asked v hv
    exact ⟨a, List.mem_append_left _ ha, hid⟩

/-- The answers of other members, and those to other asks, are as before. -/
theorem answered_append_iff {p q : NodeId} {id id' : MessageId} {n k : UInt64}
    (h : q ≠ p ∨ id' ≠ id) :
    (⟨q, id', k⟩ : Proposal) ∈ answered ++ [⟨p, id, n⟩] ↔ ⟨q, id', k⟩ ∈ answered := by
  rw [mem_append_singleton]
  refine or_iff_left fun heq => ?_
  injection heq with hq hid _
  rcases h with h | h
  · exact h hq
  · exact h hid

theorem Asking.answer (h : Asking g asked asks answered) {p : NodeId} {ask : Ask}
    (hask : (p, ask) ∈ asks) (n : UInt64) :
    Asking g asked (asks.erase (p, ask)) (answered ++ [⟨p, ask.id, n⟩]) := by
  have hopen := h.handing.fresh p ask hask
  obtain ⟨hp, hasked⟩ := h.handing.mem p ask hask
  refine ⟨h.nodup_ids, h.sender_mem, h.handing.take ?_, ?_, ?_, ?_⟩
  · rintro q a ⟨k, hk⟩ hqa
    by_cases hne : q ≠ p ∨ a.id ≠ ask.id
    · exact Or.inl ⟨k, (answered_append_iff hne).1 hk⟩
    · rw [not_or, not_not, not_not] at hne
      exact Or.inr (by rw [hne.1, h.ask_eq (h.handing.mem q a hqa).2 hasked hne.2])
  · intro v hv
    rcases mem_append_singleton.1 hv with hv | rfl
    · exact h.voter_mem v hv
    · exact hp
  · intro v hv
    rcases mem_append_singleton.1 hv with hv | rfl
    · exact h.answered_asked v hv
    · exact ⟨ask, hasked, rfl⟩
  -- A second answer to the message would come from an ask that was under way twice.
  · rintro ⟨q, id, k⟩ hv ⟨q', id', k'⟩ hw hvoter hid
    cases hvoter
    cases hid
    rcases mem_append_singleton.1 hv with hv | heq
    · rcases mem_append_singleton.1 hw with hw | heq
      · exact h.answered_inj _ hv _ hw rfl rfl
      · cases heq
        exact absurd ⟨k, hv⟩ hopen
    · rcases mem_append_singleton.1 hw with hw | heq'
      · cases heq
        exact absurd ⟨k', hw⟩ hopen
      · rw [heq, heq']

/-! ## Agreements -/

/-- Each message has at most one agreement, and what was handed to members was announced. -/
structure Announcing (g : Roster) (announced : List Agreement)
    (agreements taken : List (NodeId × Agreement)) : Prop where
  nodup_ids : (announced.map (·.id)).Nodup
  handing : Handing g announced agreements fun p a => (p, a) ∈ taken
  taken_mem : ∀ p a, (p, a) ∈ taken → p ∈ g.ids ∧ a ∈ announced

theorem Announcing.init (g : Roster) : Announcing g [] [] [] where
  nodup_ids := List.nodup_nil
  handing := ⟨List.nodup_nil, fun _ _ ha => absurd ha List.not_mem_nil,
    fun _ _ ha => absurd ha List.not_mem_nil⟩
  taken_mem _ _ ha := absurd ha List.not_mem_nil

theorem Announcing.agreement_eq (h : Announcing g announced agreements taken) {a b : Agreement}
    (ha : a ∈ announced) (hb : b ∈ announced) (hid : a.id = b.id) : a = b :=
  List.inj_on_of_nodup_map h.nodup_ids ha hb hid

theorem Announcing.sublist (h : Announcing g announced agreements taken)
    {agreements' : List (NodeId × Agreement)} (hsub : agreements'.Sublist agreements) :
    Announcing g announced agreements' taken :=
  { h with handing := h.handing.sublist hsub }

theorem Announcing.announce (h : Announcing g announced agreements taken) {a : Agreement}
    (hfresh : ∀ b ∈ announced, b.id ≠ a.id) :
    Announcing g (announced ++ [a]) (agreements ++ g.ids.map (·, a)) taken := by
  have hnew : a ∉ announced := fun hmem => hfresh a hmem rfl
  refine ⟨?_, h.handing.issue hnew fun p hp => hnew (h.taken_mem p a hp).2, fun p b hb => ?_⟩
  · exact nodup_map_append_singleton h.nodup_ids hfresh
  · exact ⟨(h.taken_mem p b hb).1, List.mem_append_left _ (h.taken_mem p b hb).2⟩

theorem Announcing.take (h : Announcing g announced agreements taken) {p : NodeId} {a : Agreement}
    (hmem : (p, a) ∈ agreements) :
    Announcing g announced (agreements.erase (p, a)) (taken ++ [(p, a)]) := by
  refine ⟨h.nodup_ids, h.handing.take fun q b hqb _ => mem_append_singleton.1 hqb,
    fun q b hqb => ?_⟩
  rcases mem_append_singleton.1 hqb with hqb | heq
  · exact h.taken_mem q b hqb
  · cases heq
    exact h.handing.mem p a hmem

end AgreedOrder.Protocol
