/-
  AgreedOrder.Proofs.Collecting.Replies

  What the replies to an ask amount to, without counting them: who has replied,
  the number in the latest reply of each process, and the largest of these.

    * `Voted`, `latest` — who has replied, and with which number.
    * `OneEach` — replies of different processes.
    * `Largest` — the latest number that no other one beats.
    * `latest_of_perm` — replies in another order.
-/

import AgreedOrder.Proofs.Votes
import Mathlib.Data.List.Nodup

namespace AgreedOrder.Collecting

variable {id : MessageId} {vs vs' : List Proposal}

/-! ## Latest replies -/

/-- A process has replied to the ask for a message. -/
def Voted (id : MessageId) (vs : List Proposal) (q : NodeId) : Prop :=
  ∃ v ∈ vs, v.id = id ∧ v.voter = q

/-- The number in the last reply of a process to the ask for a message. -/
def latest (id : MessageId) (vs : List Proposal) (q : NodeId) : Option UInt64 :=
  ((vs.filter fun v => v.id = id ∧ v.voter = q).getLast?).map (·.number)

/-- The replies to the ask for one message. -/
def repliesFor (id : MessageId) (vs : List Proposal) : List Proposal := vs.filter (·.id = id)

/-- The replies to the ask for a message come from different processes. -/
def OneEach (id : MessageId) (vs : List Proposal) : Prop :=
  ((repliesFor id vs).map (·.voter)).Nodup

theorem latest_append_singleton (id : MessageId) (vs : List Proposal) (v : Proposal) (q : NodeId) :
    latest id (vs ++ [v]) q
      = if v.id = id ∧ q = v.voter then some v.number else latest id vs q := by
  unfold latest
  rw [List.filter_append, List.filter_singleton]
  by_cases hv : v.id = id ∧ v.voter = q
  · rw [if_pos ⟨hv.1, hv.2.symm⟩, decide_eq_true hv, cond_true, List.getLast?_concat]
    rfl
  · rw [if_neg fun h => hv ⟨h.1, h.2.symm⟩, decide_eq_false hv, cond_false, List.append_nil]

theorem mem_of_latest {q : NodeId} {n : UInt64} (h : latest id vs q = some n) :
    ⟨q, id, n⟩ ∈ vs := by
  obtain ⟨v, hv, rfl⟩ := Option.map_eq_some_iff.1 h
  obtain ⟨hmem, hfits⟩ := List.mem_filter.1 (List.mem_of_getLast? hv)
  obtain ⟨rfl, rfl⟩ := of_decide_eq_true hfits
  exact hmem

/-- A process has a latest reply exactly if it has replied. -/
theorem exists_latest_iff {q : NodeId} : (∃ n, latest id vs q = some n) ↔ Voted id vs q := by
  constructor
  · rintro ⟨n, hn⟩
    exact ⟨_, mem_of_latest hn, rfl, rfl⟩
  · rintro ⟨v, hv, hfits⟩
    have hmem : v ∈ vs.filter fun v => v.id = id ∧ v.voter = q :=
      List.mem_filter.2 ⟨hv, decide_eq_true hfits⟩
    refine ⟨_, congrArg (Option.map _) (List.getLast?_eq_some_getLast (List.ne_nil_of_mem hmem))⟩

/-! ## Replies of different processes -/

theorem mem_repliesFor {v : Proposal} : v ∈ repliesFor id vs ↔ v ∈ vs ∧ v.id = id := by
  unfold repliesFor
  rw [List.mem_filter, decide_eq_true_eq]

/-- With one reply from each process, the latest is the only one. -/
theorem latest_eq_some_iff (honce : OneEach id vs) {q : NodeId} {n : UInt64} :
    latest id vs q = some n ↔ ⟨q, id, n⟩ ∈ repliesFor id vs := by
  constructor
  · exact fun h => mem_repliesFor.2 ⟨mem_of_latest h, rfl⟩
  · intro h
    obtain ⟨n', hn'⟩ := exists_latest_iff.2 ⟨_, (mem_repliesFor.1 h).1, rfl, rfl⟩
    have heq := List.inj_on_of_nodup_map honce h
      (mem_repliesFor.2 ⟨mem_of_latest hn', rfl⟩) rfl
    injection heq with _ _ hnumber
    rw [hn', hnumber]

theorem OneEach.of_perm (h : OneEach id vs)
    (hperm : (repliesFor id vs).Perm (repliesFor id vs')) : OneEach id vs' :=
  (hperm.map Proposal.voter).nodup_iff.1 h

/-- The order of replies of different processes does not matter. -/
theorem latest_of_perm (honce : OneEach id vs)
    (hperm : (repliesFor id vs).Perm (repliesFor id vs')) (q : NodeId) :
    latest id vs q = latest id vs' q := by
  have honce' : OneEach id vs' := honce.of_perm hperm
  apply Option.ext
  intro n
  rw [latest_eq_some_iff honce, latest_eq_some_iff honce', hperm.mem_iff]

/-- If all who reply do so in a first part, and once, there is no reply in the rest. -/
theorem repliesFor_append_of_voted (honce : OneEach id (vs ++ vs'))
    (h : ∀ v ∈ repliesFor id (vs ++ vs'), Voted id vs v.voter) :
    repliesFor id (vs ++ vs') = repliesFor id vs := by
  unfold OneEach at honce
  have happend : repliesFor id (vs ++ vs') = repliesFor id vs ++ repliesFor id vs' :=
    List.filter_append ..
  rw [happend, List.map_append, List.nodup_append] at honce
  have hnil : repliesFor id vs' = [] := by
    rw [List.eq_nil_iff_forall_not_mem]
    intro v hv
    obtain ⟨v', hv', hfits, hvoter⟩ := h v (by rw [happend]; exact List.mem_append_right _ hv)
    exact honce.2.2 _ (List.mem_map_of_mem (mem_repliesFor.2 ⟨hv', hfits⟩)) _
      (List.mem_map_of_mem hv) hvoter
  rw [happend, hnil, List.append_nil]

/-! ## The largest one -/

/-- An agreement on the largest of the latest numbers; of equal ones, on that of the process which
    comes last. -/
structure Largest (id : MessageId) (vs : List Proposal) (a : Agreement) : Prop where
  id_eq : a.id = id
  latest_eq : latest id vs a.voter = some a.number
  le : ∀ q n, latest id vs q = some n → n < a.number ∨ n = a.number ∧ q ≤ a.voter

theorem Largest.number_le {a : Agreement} (h : Largest id vs a) {q : NodeId} {n : UInt64}
    (hq : latest id vs q = some n) : n ≤ a.number := by
  rcases h.le q n hq with hlt | ⟨heq, -⟩
  · exact UInt64.le_of_lt hlt
  · exact heq ▸ UInt64.le_refl _

theorem Largest.unique {a a' : Agreement} (h : Largest id vs a) (h' : Largest id vs' a')
    (hsame : ∀ q, latest id vs q = latest id vs' q) : a = a' := by
  have hle : Votes.beats (a'.voter, a'.number) (a.voter, a.number) = false :=
    Votes.not_beats_iff_le.2 (h.le _ _ ((hsame _).trans h'.latest_eq))
  have hge : Votes.beats (a.voter, a.number) (a'.voter, a'.number) = false :=
    Votes.not_beats_iff_le.2 (h'.le _ _ ((hsame _).symm.trans h.latest_eq))
  have heq := Votes.eq_of_not_beats hle hge
  injection heq with hvoter hnumber
  cases a
  cases a'
  simp only [Agreement.mk.injEq]
  exact ⟨hvoter.symm, h.id_eq.trans h'.id_eq.symm, hnumber.symm⟩

/-- Votes that hold the latest number of each process amount to the largest one. -/
theorem largest_of_agreement {v : Votes} {a : Agreement}
    (hlatest : ∀ q, v.numbers.get? q = latest v.id vs q) (h : v.agreement = some a) :
    Largest v.id vs a := by
  obtain ⟨hid, hvote, hmax⟩ := Votes.agreement_eq_some h
  refine ⟨hid, (hlatest _).symm.trans hvote, fun q n hq => ?_⟩
  exact Votes.not_beats_iff_le.1 (hmax q n ((hlatest q).trans hq))

end AgreedOrder.Collecting
