/-
  AgreedOrder.Text.Split

  Cutting a list at separators. Cutting loses nothing but the separators, so
  the pieces put together again give the list back.
-/

namespace AgreedOrder.Text

variable {α : Type}

/-- The pieces between the separators of a list: one more than there are separators. -/
def splitWhere (isSeparator : α → Bool) : List α → List (List α)
  | [] => [[]]
  | a :: rest =>
    if isSeparator a then [] :: splitWhere isSeparator rest
    else
      match splitWhere isSeparator rest with
      | [] => [[a]]
      | piece :: pieces => (a :: piece) :: pieces

theorem splitWhere_ne_nil (p : α → Bool) (l : List α) : splitWhere p l ≠ [] := by
  cases l with
  | nil => simp [splitWhere]
  | cons a rest =>
    rw [splitWhere]
    split
    · simp
    · split <;> simp

/-- No piece holds a separator. -/
theorem not_isSeparator_of_mem_splitWhere {p : α → Bool} {l piece : List α} {a : α}
    (h : piece ∈ splitWhere p l) (ha : a ∈ piece) : p a = false := by
  induction l generalizing piece with
  | nil =>
    simp only [splitWhere, List.mem_singleton] at h
    subst h
    simp at ha
  | cons b rest ih =>
    rw [splitWhere] at h
    split at h
    · rcases List.mem_cons.1 h with rfl | h
      · simp at ha
      · exact ih h ha
    · rename_i hb
      split at h
      · rename_i hnil
        exact absurd hnil (splitWhere_ne_nil p rest)
      · rename_i first others hcons
        rw [hcons] at ih
        rcases List.mem_cons.1 h with rfl | h
        · rcases List.mem_cons.1 ha with rfl | ha
          · simpa using hb
          · exact ih (List.mem_cons_self ..) ha
        · exact ih (List.mem_cons_of_mem _ h) ha

/-- A list without separators is one piece. -/
theorem splitWhere_eq_singleton {p : α → Bool} {l : List α} (h : ∀ a ∈ l, p a = false) :
    splitWhere p l = [l] := by
  induction l with
  | nil => rfl
  | cons a rest ih =>
    rw [splitWhere, if_neg (by simp [h a (List.mem_cons_self ..)]),
      ih fun b hb => h b (List.mem_cons_of_mem _ hb)]

/-- What stands before the first separator is a piece of its own. -/
theorem splitWhere_append_cons {p : α → Bool} {l : List α} {s : α} (rest : List α)
    (h : ∀ a ∈ l, p a = false) (hs : p s = true) :
    splitWhere p (l ++ s :: rest) = l :: splitWhere p rest := by
  induction l with
  | nil => simp [splitWhere, hs]
  | cons a tail ih =>
    rw [List.cons_append, splitWhere, if_neg (by simp [h a (List.mem_cons_self ..)]),
      ih fun b hb => h b (List.mem_cons_of_mem _ hb)]

/-- Pieces without separators that are put together are cut apart again. -/
theorem splitWhere_intercalate {p : α → Bool} {s : α} (hs : p s = true) {pieces : List (List α)}
    (hne : pieces ≠ []) (h : ∀ piece ∈ pieces, ∀ a ∈ piece, p a = false) :
    splitWhere p (List.intercalate [s] pieces) = pieces := by
  induction pieces with
  | nil => exact absurd rfl hne
  | cons piece others ih =>
    obtain ⟨hpiece, hothers⟩ := List.forall_mem_cons.1 h
    cases others with
    | nil => rw [List.intercalate_singleton, splitWhere_eq_singleton hpiece]
    | cons second others =>
      rw [List.intercalate_cons_cons, List.append_assoc, List.singleton_append,
        splitWhere_append_cons _ hpiece hs, ih (List.cons_ne_nil _ _) hothers]

/-- What holds of the separator and within every piece holds within the pieces put together. -/
theorem forall_mem_intercalate {P : α → Prop} {s : α} (hs : P s) {pieces : List (List α)}
    (h : ∀ piece ∈ pieces, ∀ a ∈ piece, P a) : ∀ a ∈ List.intercalate [s] pieces, P a := by
  induction pieces with
  | nil => exact nofun
  | cons piece others ih =>
    obtain ⟨hpiece, hothers⟩ := List.forall_mem_cons.1 h
    cases others with
    | nil => rwa [List.intercalate_singleton]
    | cons second others =>
      rw [List.intercalate_cons_cons, List.append_assoc]
      exact List.forall_mem_append.2 ⟨hpiece, List.forall_mem_cons.2 ⟨hs, ih hothers⟩⟩

/-- The pieces put together again give the list back. -/
theorem intercalate_splitWhere [BEq α] [LawfulBEq α] (s : α) (l : List α) :
    List.intercalate [s] (splitWhere (· == s) l) = l := by
  induction l with
  | nil => rfl
  | cons a rest ih =>
    rw [splitWhere]
    split
    · rename_i ha
      rw [List.intercalate_cons_of_ne_nil (splitWhere_ne_nil _ _), ih, beq_iff_eq.1 ha]
      rfl
    · split
      · rename_i hnil
        exact absurd hnil (splitWhere_ne_nil _ _)
      · rename_i piece pieces hcons
        rw [hcons] at ih
        rw [List.intercalate_cons_cons_left, ih]

end AgreedOrder.Text
