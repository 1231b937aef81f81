/-
  AgreedOrder.Proofs.Protocol.Handing

  Things that are issued to a whole group and handed to each member at most
  once. What is under way to a member was issued, and the member has not had
  it; and what was issued is under way to a running member, or it has had it,
  or the thing is lost together with everybody who had it.

    * `Handing` — nothing is handed twice.
    * `Spreading` — nothing is withheld while a running member has it.
-/

import AgreedOrder.Proofs.Protocol.Step
import Mathlib.Data.List.Nodup

namespace AgreedOrder.Protocol

variable {α : Type} {g : Roster} {issued : List α} {underWay underWay' : List (NodeId × α)}
  {had had' : NodeId → α → Prop} {a : α}

theorem mem_issue_iff {p : NodeId} {b : α} :
    (p, b) ∈ underWay ++ g.ids.map (·, a) ↔ (p, b) ∈ underWay ∨ p ∈ g.ids ∧ b = a := by
  simp only [List.mem_append, List.mem_map, Prod.mk.injEq]
  refine or_congr Iff.rfl ⟨?_, ?_⟩
  · rintro ⟨q, hq, rfl, rfl⟩
    exact ⟨hq, rfl⟩
  · rintro ⟨hp, rfl⟩
    exact ⟨p, hp, rfl, rfl⟩

/-! ## At most once -/

/-- What is under way goes to a member of the group that has not had it. -/
structure Handing (g : Roster) (issued : List α) (underWay : List (NodeId × α))
    (had : NodeId → α → Prop) : Prop where
  nodup : underWay.Nodup
  mem : ∀ p a, (p, a) ∈ underWay → p ∈ g.ids ∧ a ∈ issued
  fresh : ∀ p a, (p, a) ∈ underWay → ¬had p a

theorem Handing.sublist (h : Handing g issued underWay had) (hsub : underWay'.Sublist underWay) :
    Handing g issued underWay' had where
  nodup := h.nodup.sublist hsub
  mem p a hpa := h.mem p a (hsub.subset hpa)
  fresh p a hpa := h.fresh p a (hsub.subset hpa)

theorem Handing.issue (h : Handing g issued underWay had) (hnew : a ∉ issued)
    (hhad : ∀ p, ¬had p a) :
    Handing g (issued ++ [a]) (underWay ++ g.ids.map (·, a)) had := by
  refine ⟨?_, fun p b hpb => ?_, fun p b hpb => ?_⟩
  · rw [List.nodup_append]
    refine ⟨h.nodup, g.nodup.map fun p q hpq => (Prod.mk.inj hpq).1, ?_⟩
    rintro ⟨p, b⟩ hpb ⟨q, c⟩ hqc heq
    cases heq
    obtain ⟨r, -, hr⟩ := List.mem_map.1 hqc
    cases hr
    exact hnew (h.mem _ _ hpb).2
  · rcases mem_issue_iff.1 hpb with hpb | ⟨hp, rfl⟩
    · exact ⟨(h.mem p b hpb).1, List.mem_append_left _ (h.mem p b hpb).2⟩
    · exact ⟨hp, List.mem_append_right _ (List.mem_singleton_self b)⟩
  · rcases mem_issue_iff.1 hpb with hpb | ⟨-, rfl⟩
    · exact h.fresh p b hpb
    · exact hhad p

theorem Handing.take [DecidableEq α] (h : Handing g issued underWay had) {p : NodeId}
    (hhad : ∀ q b, had' q b → (q, b) ∈ underWay → had q b ∨ (q, b) = (p, a)) :
    Handing g issued (underWay.erase (p, a)) had' where
  nodup := h.nodup.erase _
  mem q b hqb := h.mem q b (List.mem_of_mem_erase hqb)
  fresh q b hqb := by
    obtain ⟨hne, hqb'⟩ := h.nodup.mem_erase_iff.1 hqb
    intro hnow
    rcases hhad q b hnow hqb' with hbefore | heq
    · exact h.fresh q b hqb' hbefore
    · exact hne heq

/-! ## Lost only with all who had it -/

variable {running running' : NodeId → Prop} {origin origin' : α → NodeId → Prop}

/-- Nobody who could pass a thing on is left. -/
structure Lost (running : NodeId → Prop) (origin : α → NodeId → Prop)
    (underWay : List (NodeId × α)) (had : NodeId → α → Prop) (a : α) : Prop where
  origin_crashed : ∀ p, origin a p → ¬running p
  holders_crashed : ∀ p, had p a → ¬running p
  not_underWay : ∀ p, (p, a) ∉ underWay

/-- A running member has had what was issued, or will, unless nobody is left to pass it on. -/
def Spreading (g : Roster) (running : NodeId → Prop) (origin : α → NodeId → Prop)
    (issued : List α) (underWay : List (NodeId × α)) (had : NodeId → α → Prop) : Prop :=
  ∀ a ∈ issued, ∀ p ∈ g.ids, running p →
    had p a ∨ (p, a) ∈ underWay ∨ Lost running origin underWay had a

/-- Fewer members may run. -/
theorem Spreading.mono (h : Spreading g running origin issued underWay had)
    (hrunning : ∀ p, running' p → running p)
    (horigin : ∀ a ∈ issued, ∀ p, origin' a p → origin a p) :
    Spreading g running' origin' issued underWay had := by
  intro a ha p hp hrun
  rcases h a ha p hp (hrunning p hrun) with hhad | hway | hlost
  · exact Or.inl hhad
  · exact Or.inr (Or.inl hway)
  · exact Or.inr (Or.inr ⟨fun q hq hr => hlost.origin_crashed q (horigin a ha q hq) (hrunning q hr),
      fun q hq hr => hlost.holders_crashed q hq (hrunning q hr), hlost.not_underWay⟩)

theorem Spreading.issue (h : Spreading g running origin issued underWay had) (hnew : a ∉ issued) :
    Spreading g running origin (issued ++ [a]) (underWay ++ g.ids.map (·, a)) had := by
  intro b hb p hp hrun
  rcases List.mem_append.1 hb with hold | hold
  · rcases h b hold p hp hrun with hhad | hway | hlost
    · exact Or.inl hhad
    · exact Or.inr (Or.inl (mem_issue_iff.2 (Or.inl hway)))
    · refine Or.inr (Or.inr ⟨hlost.origin_crashed, hlost.holders_crashed, fun q hq => ?_⟩)
      rcases mem_issue_iff.1 hq with hq | ⟨-, rfl⟩
      · exact hlost.not_underWay q hq
      · exact hnew hold
  · rw [List.mem_singleton.1 hold]
    exact Or.inr (Or.inl (mem_issue_iff.2 (Or.inr ⟨hp, rfl⟩)))

theorem Spreading.take [DecidableEq α] (h : Spreading g running origin issued underWay had)
    {p : NodeId} (hhad : had' p a) (hmono : ∀ q b, had q b → had' q b)
    (hback : ∀ q, ∀ b ∈ issued, had' q b → had q b ∨ ∃ r, (r, b) ∈ underWay) :
    Spreading g running origin issued (underWay.erase (p, a)) had' := by
  intro b hb q hq hrun
  rcases h b hb q hq hrun with hbefore | hway | hlost
  · exact Or.inl (hmono q b hbefore)
  · by_cases heq : (q, b) = (p, a)
    · cases heq
      exact Or.inl hhad
    · exact Or.inr (Or.inl ((List.mem_erase_of_ne heq).2 hway))
  · refine Or.inr (Or.inr ⟨hlost.origin_crashed, fun r hr => ?_, fun r hr => ?_⟩)
    · rcases hback r b hb hr with hbefore | ⟨r', hr'⟩
      · exact hlost.holders_crashed r hbefore
      · exact absurd hr' (hlost.not_underWay r')
    · exact hlost.not_underWay r (List.mem_of_mem_erase hr)

/-- A thing may be lost to a member that crashed. -/
theorem Spreading.drop [DecidableEq α] (h : Spreading g running origin issued underWay had)
    {p : NodeId} (crashed : ¬running p) :
    Spreading g running origin issued (underWay.erase (p, a)) had := by
  intro b hb q hq hrun
  rcases h b hb q hq hrun with hhad | hway | hlost
  · exact Or.inl hhad
  · refine Or.inr (Or.inl ((List.mem_erase_of_ne fun heq => ?_).2 hway))
    cases heq
    exact crashed hrun
  · exact Or.inr (Or.inr ⟨hlost.origin_crashed, hlost.holders_crashed,
      fun r hr => hlost.not_underWay r (List.mem_of_mem_erase hr)⟩)

/-- A thing may be lost altogether once everybody who had it has crashed. -/
theorem Spreading.lose [DecidableEq α] (h : Spreading g running origin issued underWay had)
    (horigin : ∀ p, origin a p → ¬running p) (holders : ∀ p, had p a → ¬running p) :
    Spreading g running origin issued (underWay.filter (·.2 ≠ a)) had := by
  intro b hb q hq hrun
  by_cases heq : b = a
  · subst heq
    refine Or.inr (Or.inr ⟨horigin, holders, fun r hr => ?_⟩)
    have hne := (List.mem_filter.1 hr).2
    simp at hne
  · rcases h b hb q hq hrun with hhad | hway | hlost
    · exact Or.inl hhad
    · exact Or.inr (Or.inl (List.mem_filter.2 ⟨hway, by simpa using heq⟩))
    · exact Or.inr (Or.inr ⟨hlost.origin_crashed, hlost.holders_crashed,
        fun r hr => hlost.not_underWay r (List.mem_of_mem_filter hr)⟩)

/-- Once nothing is under way to a running member, it has had what another running one has had. -/
theorem Spreading.had_of_had (h : Spreading g running origin issued underWay had)
    (hquiet : ∀ x ∈ underWay, ¬running x.1) (ha : a ∈ issued) {p q : NodeId}
    (hp : had p a ∨ origin a p) (hrunp : running p) (hq : q ∈ g.ids) (hrunq : running q) :
    had q a := by
  rcases h a ha q hq hrunq with hhad | hway | hlost
  · exact hhad
  · exact absurd hrunq (hquiet _ hway)
  · rcases hp with hp | hp
    · exact absurd hrunp (hlost.holders_crashed p hp)
    · exact absurd hrunp (hlost.origin_crashed p hp)

end AgreedOrder.Protocol
