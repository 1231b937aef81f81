/-
  AgreedOrder.Proofs.Votes

  What the votes on a message amount to: the number of one of the voters, and
  none of the other votes is larger. A collection of votes that is not over
  has counted every proposal that came in.

    * `agreement_eq_some` — the winning vote.
    * `Collector.advanced` — one round of a collection.
-/

import AgreedOrder.Member.Background
import AgreedOrder.Proofs.SortedMap

namespace AgreedOrder

namespace Votes

variable {v : Votes}

/-! ## The winner -/

theorem number_le_of_not_beats {a b : NodeId × UInt64} (h : beats a b = false) : a.2 ≤ b.2 := by
  by_cases hlt : b.2 < a.2
  · unfold beats compareLex compareOn at h
    rw [Std.compare_eq_gt.2 hlt] at h
    cases h
  · exact UInt64.not_lt.1 hlt

theorem not_beats_iff {a b : NodeId × UInt64} : beats a b = false ↔
    (compareLex (compareOn Prod.snd) (compareOn Prod.fst) a b).isLE = true := by
  unfold beats
  rw [← Ordering.not_isLE_eq_isGT, Bool.not_eq_false']

theorem beats_irrefl (a : NodeId × UInt64) : beats a a = false :=
  not_beats_iff.2 Std.ReflCmp.isLE_rfl

theorem not_beats_trans {a b c : NodeId × UInt64} (hab : beats a b = false)
    (hbc : beats b c = false) : beats a c = false :=
  not_beats_iff.2 (Std.TransCmp.isLE_trans (not_beats_iff.1 hab) (not_beats_iff.1 hbc))

theorem not_beats_of_beats {a b : NodeId × UInt64} (h : beats a b = true) : beats b a = false := by
  unfold beats at h
  rw [Ordering.isGT_iff_eq_gt] at h
  rw [not_beats_iff, Std.OrientedCmp.lt_of_gt h]
  rfl

/-- One vote does not win over another if its number is smaller, or the same and its process does
    not come later. -/
theorem not_beats_iff_le {a b : NodeId × UInt64} :
    beats a b = false ↔ a.2 < b.2 ∨ a.2 = b.2 ∧ a.1 ≤ b.1 := by
  have hprocess (x y : NodeId) : (compare x y).isLE = true ↔ x ≤ y := by
    have hlt : compare y x = .lt ↔ y < x := compareOfLessAndEq_eq_lt
    have hle : x ≤ y ↔ ¬y < x := Iff.rfl
    have hswap : compare x y = (compare y x).swap := Std.OrientedCmp.eq_swap
    rw [hle, ← hlt, hswap]
    cases compare y x <;> decide
  rw [not_beats_iff, compareLex, Ordering.isLE_then_iff_or, compareOn, compareOn, hprocess,
    Std.compare_eq_lt, Std.LawfulEqOrd.compare_eq_iff_eq]

/-- Two votes that do not win over each other are the same. -/
theorem eq_of_not_beats {a b : NodeId × UInt64} (hab : beats a b = false)
    (hba : beats b a = false) : a = b := by
  rw [not_beats_iff] at hab hba
  have heq := Std.OrientedCmp.isLE_antisymm hab hba
  simp only [compareLex_eq_eq, compareOn, Std.LawfulEqOrd.compare_eq_iff_eq] at heq
  exact Prod.ext heq.2 heq.1

/-- The fold that looks for the largest vote ends at one that no vote beats. -/
theorem foldl_beats (l : List (NodeId × UInt64)) (v : NodeId × UInt64) :
    (l.foldl (fun best w => if beats w best then w else best) v) ∈ v :: l ∧
      ∀ w ∈ v :: l,
        beats w (l.foldl (fun best w => if beats w best then w else best) v) = false := by
  induction l generalizing v with
  | nil =>
    refine ⟨List.mem_cons_self .., fun w hw => ?_⟩
    rw [List.mem_singleton.1 hw]
    exact beats_irrefl v
  | cons u tl ih =>
    rw [List.foldl_cons]
    obtain ⟨hmem, hmax⟩ := ih (if beats u v then u else v)
    -- Neither of the two beats the one that goes on.
    have hnext : ∀ w ∈ [v, u], beats w (if beats u v then u else v) = false := by
      intro w hw
      rcases List.mem_cons.1 hw with rfl | hw
      · split
        · rename_i huw
          exact not_beats_of_beats huw
        · exact beats_irrefl w
      · rw [List.mem_singleton.1 hw]
        split
        · exact beats_irrefl u
        · rename_i huv
          simpa using huv
    refine ⟨?_, fun w hw => ?_⟩
    · rcases List.mem_cons.1 hmem with heq | hmem
      · rw [heq]
        split
        · exact List.mem_cons_of_mem _ (List.mem_cons_self ..)
        · exact List.mem_cons_self ..
      · exact List.mem_cons_of_mem _ (List.mem_cons_of_mem _ hmem)
    -- What the rest is measured with is not beaten by the two, nor by the rest.
    · by_cases hvu : w ∈ [v, u]
      · exact not_beats_trans (hnext w hvu) (hmax _ (List.mem_cons_self ..))
      · refine hmax w (List.mem_cons_of_mem _ ?_)
        simp only [List.mem_cons, List.not_mem_nil, or_false, not_or] at hvu hw
        rcases hw with h | h | h
        · exact absurd h hvu.1
        · exact absurd h hvu.2
        · exact h

theorem winner_eq_some {l : List (NodeId × UInt64)} {w : NodeId × UInt64}
    (h : winner l = some w) : w ∈ l ∧ ∀ u ∈ l, beats u w = false := by
  cases l with
  | nil => cases h
  | cons v tl =>
    cases h
    exact foldl_beats tl v

theorem winner_eq_none_iff {l : List (NodeId × UInt64)} : winner l = none ↔ l = [] := by
  cases l with
  | nil => exact ⟨fun _ => rfl, fun _ => rfl⟩
  | cons v tl => exact ⟨nofun, nofun⟩

/-- The order in which votes are looked at does not matter. -/
theorem winner_eq_of_perm {l l' : List (NodeId × UInt64)} (h : l.Perm l') :
    winner l = winner l' := by
  cases hw : winner l with
  | none =>
    rw [winner_eq_none_iff.1 hw] at h
    rw [h.symm.eq_nil, winner]
  | some w =>
    cases hw' : winner l' with
    | none =>
      rw [winner_eq_none_iff.1 hw'] at h
      rw [h.eq_nil] at hw
      cases hw
    | some w' =>
      obtain ⟨hmem, hmax⟩ := winner_eq_some hw
      obtain ⟨hmem', hmax'⟩ := winner_eq_some hw'
      exact congrArg some (eq_of_not_beats (hmax' w (h.mem_iff.1 hmem)) (hmax w' (h.mem_iff.2 hmem')))

/-- The agreement has the number of one of the votes, and no vote beats it. -/
theorem agreement_eq_some {a : Agreement} (h : v.agreement = some a) :
    a.id = v.id ∧ v.numbers.get? a.voter = some a.number ∧
      ∀ q n, v.numbers.get? q = some n → beats (q, n) (a.voter, a.number) = false := by
  unfold agreement at h
  obtain ⟨w, hw, rfl⟩ := Option.map_eq_some_iff.1 h
  obtain ⟨hmem, hmax⟩ := winner_eq_some hw
  exact ⟨rfl, (v.numbers.mem_entries_iff w.1 w.2).1 hmem,
    fun q n hq => hmax (q, n) ((v.numbers.mem_entries_iff q n).2 hq)⟩

theorem size_pos_of_get? {q : NodeId} {n : UInt64} (h : v.numbers.get? q = some n) : 0 < v.size :=
  List.length_pos_of_mem ((v.numbers.mem_entries_iff q n).2 h)

theorem size_pos_iff : 0 < v.size ↔ ∃ q n, v.numbers.get? q = some n := by
  constructor
  · intro h
    obtain ⟨⟨q, n⟩, he⟩ := List.exists_mem_of_length_pos h
    exact ⟨q, n, (v.numbers.mem_entries_iff q n).1 he⟩
  · rintro ⟨q, n, hq⟩
    exact size_pos_of_get? hq

theorem agreement_ne_none (h : 0 < v.size) : v.agreement ≠ none := by
  unfold size SortedMap.size at h
  unfold agreement
  cases hl : v.numbers.entries with
  | nil =>
    rw [hl] at h
    exact absurd h (Nat.lt_irrefl 0)
  | cons w tl => exact nofun

/-! ## Counting -/

@[simp] theorem id_record (v : Votes) (p : Proposal) : (v.record p).id = v.id := by
  unfold record
  split <;> rfl

theorem get?_record (v : Votes) (p : Proposal) (q : NodeId) :
    (v.record p).numbers.get? q
      = if p.id = v.id ∧ q = p.voter then some p.number else v.numbers.get? q := by
  unfold record
  by_cases hid : p.id = v.id
  · rw [if_pos hid]
    dsimp only
    rw [SortedMap.get?_insert_eq_ite]
    simp only [hid, true_and]
  · rw [if_neg hid, if_neg fun h => hid h.1]

theorem covers_iff (v : Votes) (live : List NodeId) :
    v.covers live = true ↔ ∀ q ∈ live, ∃ n, v.numbers.get? q = some n := by
  unfold covers SortedMap.contains
  simp only [List.all_eq_true, Option.isSome_iff_exists]

end Votes

namespace Collector

variable {c c' : Collector} {live : List NodeId}

/-- What a collection knows after proposals came in: every vote it has was there before or is one
    of them. -/
structure Counts (ps : List Proposal) (c c' : Collector) : Prop where
  id_eq : c'.votes.id = c.votes.id
  sound : ∀ q n, c'.votes.numbers.get? q = some n →
    c.votes.numbers.get? q = some n ∨ ⟨q, c.votes.id, n⟩ ∈ ps

/-- Every vote that was there, and every proposal for the message, is among the votes. -/
structure CountsAll (ps : List Proposal) (c c' : Collector) : Prop where
  kept : ∀ q n, c.votes.numbers.get? q = some n → ∃ n', c'.votes.numbers.get? q = some n'
  counted : ∀ p ∈ ps, p.id = c.votes.id → ∃ n, c'.votes.numbers.get? p.voter = some n

theorem counts_record (p : Proposal) (rest : List Proposal)
    (h : Counts rest { c with votes := c.votes.record p } c') : Counts (p :: rest) c c' := by
  refine ⟨h.id_eq.trans (Votes.id_record ..), fun q n hq => ?_⟩
  have hq' := h.sound q n hq
  simp only [Votes.id_record, Votes.get?_record] at hq'
  rcases hq' with hq' | hq'
  · split at hq'
    · rename_i hp
      obtain ⟨hid, rfl⟩ := hp
      cases hq'
      exact Or.inr (by rw [← hid]; exact List.mem_cons_self ..)
    · exact Or.inl hq'
  · exact Or.inr (List.mem_cons_of_mem _ hq')

theorem countsAll_record (p : Proposal) (rest : List Proposal)
    (h : CountsAll rest { c with votes := c.votes.record p } c') : CountsAll (p :: rest) c c' := by
  have hkept := h.kept
  simp only [Votes.get?_record] at hkept
  refine ⟨fun q n hq => ?_, fun p' hp' hid => ?_⟩
  · by_cases hp : p.id = c.votes.id ∧ q = p.voter
    · exact hkept q p.number (if_pos hp)
    · exact hkept q n (by rw [if_neg hp]; exact hq)
  · rcases List.mem_cons.1 hp' with rfl | hp'
    · exact hkept p'.voter p'.number (if_pos ⟨hid, rfl⟩)
    · exact h.counted p' hp' (hid.trans (Votes.id_record ..).symm)

theorem count_counts (live : List NodeId) (ps : List Proposal) (c : Collector) :
    Counts ps c (count live ps c).2 := by
  induction ps generalizing c with
  | nil => exact ⟨rfl, fun q n hq => Or.inl hq⟩
  | cons p rest ih =>
    rw [count]
    split
    · refine counts_record p rest ⟨rfl, fun q n hq => Or.inl hq⟩
    · exact counts_record p rest (ih _)

/-- A collection that is over when proposals were counted has the votes of all live members. -/
theorem count_of_over {ps : List Proposal} (h : (count live ps c).1 = true) :
    (count live ps c).2.isComplete live = true := by
  induction ps generalizing c with
  | nil => cases h
  | cons p rest ih =>
    rw [count] at h ⊢
    split at h
    · rename_i hcomplete
      rw [if_pos hcomplete]
      exact hcomplete
    · rename_i hopen
      rw [if_neg hopen]
      exact ih h

/-- One that is not over has counted all proposals; there were none, or votes are missing. -/
theorem count_of_open {ps : List Proposal} (h : (count live ps c).1 = false) :
    CountsAll ps c (count live ps c).2 ∧
      (ps = [] ∧ (count live ps c).2 = c ∨ (count live ps c).2.isComplete live = false) := by
  induction ps generalizing c with
  | nil =>
    exact ⟨⟨fun q n hq => ⟨n, hq⟩, fun p hp => absurd hp List.not_mem_nil⟩, Or.inl ⟨rfl, rfl⟩⟩
  | cons p rest ih =>
    rw [count] at h ⊢
    split at h
    · cases h
    · rename_i hopen
      rw [if_neg hopen]
      obtain ⟨hall, hend⟩ := ih h
      refine ⟨countsAll_record p rest hall, Or.inr ?_⟩
      rcases hend with ⟨-, heq⟩ | hend
      · rw [heq]
        simpa using hopen
      · exact hend

/-- A collection that goes on after a round has counted what came in and seen every change of the
    group; its votes are not complete, unless nothing happened in the round. -/
structure GoesOn (live : List NodeId) (changes : Nat) (c c' : Collector) : Prop where
  countsAll : CountsAll c.inbox c c'
  inbox_eq : c'.inbox = []
  seenChanges_eq : c'.seenChanges = changes
  incomplete : c' = c ∨ c'.isComplete live = false

theorem advance_counts (c : Collector) (live : List NodeId) (changes : Nat) :
    Counts c.inbox c (c.advance live changes).2 := by
  have h := count_counts live c.inbox c
  unfold advance
  dsimp only
  split
  · exact ⟨h.id_eq, h.sound⟩
  · split
    · exact ⟨h.id_eq, h.sound⟩
    · exact ⟨h.id_eq, h.sound⟩

theorem advance_of_over {changes : Nat} (h : (c.advance live changes).1 = true) :
    (c.advance live changes).2.isComplete live = true := by
  unfold advance at h ⊢
  dsimp only at h ⊢
  split at h
  · rename_i hover
    rw [if_pos hover]
    exact count_of_over hover
  · rename_i hopen
    rw [if_neg hopen]
    split at h
    · cases h
    · rename_i hchanged
      rw [if_neg hchanged]
      exact h

theorem advance_of_open {changes : Nat} (h : (c.advance live changes).1 = false) :
    GoesOn live changes c (c.advance live changes).2 := by
  unfold advance at h ⊢
  dsimp only at h ⊢
  split at h
  · cases h
  · rename_i hopen
    obtain ⟨hall, hend⟩ := count_of_open (c := c) (Bool.eq_false_iff.2 hopen)
    rw [if_neg hopen]
    split at h
    · rename_i hseen
      rw [if_pos hseen]
      refine ⟨⟨hall.kept, hall.counted⟩, rfl, hseen, ?_⟩
      rcases hend with ⟨hinbox, heq⟩ | hend
      · left
        rw [heq, ← hinbox]
      · exact Or.inr hend
    · rename_i hchanged
      rw [if_neg hchanged]
      exact ⟨⟨hall.kept, hall.counted⟩, rfl, rfl, Or.inr h⟩

end Collector

end AgreedOrder
