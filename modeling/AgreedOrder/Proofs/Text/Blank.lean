/-
  AgreedOrder.Proofs.Text.Blank

  The fields and the trimmed form of a text, said of the text as it stands.
  Every text has one list of fields: words with blanks around them. A text that
  starts and ends with another character than a blank is left as it is.

    * `IsWord`, `FieldsOf` — the words of a text, with whatever blanks around them.
    * `fields_eq_iff` — the fields are these words.
    * `trim_eq_self`, `isEmpty_trim` — what trimming leaves.
-/

import AgreedOrder.Proofs.Text.Numeral
import AgreedOrder.Text.Blank
import Mathlib.Data.List.TakeWhile

namespace AgreedOrder.Text

/-! ## Fields -/

/-- A text that is not empty and holds no blank. -/
structure IsWord (w : String) : Prop where
  ne_empty : w ≠ ""
  not_isBlank : ∀ c ∈ w.toList, isBlank c = false

/-- These characters are these words in this order, with a blank between any two and whatever
    blanks elsewhere. -/
inductive FieldsOf : List Char → List String → Prop
  | nil : FieldsOf [] []
  | blank {c : Char} {cs : List Char} {ws : List String} (isBlank : isBlank c = true)
      (rest : FieldsOf cs ws) : FieldsOf (c :: cs) ws
  | last {w : String} (word : IsWord w) : FieldsOf w.toList [w]
  | word {w : String} {c : Char} {cs : List Char} {ws : List String} (word : IsWord w)
      (isBlank : isBlank c = true) (rest : FieldsOf cs ws) :
      FieldsOf (w.toList ++ c :: cs) (w :: ws)

theorem IsWord.toList_ne_nil {w : String} (h : IsWord w) : w.toList ≠ [] := fun hnil =>
  h.ne_empty (String.toList_eq_nil_iff.1 hnil)

theorem isWord_ofList {cs : List Char} (hne : cs ≠ []) (h : ∀ c ∈ cs, isBlank c = false) :
    IsWord (String.ofList cs) where
  ne_empty hempty := hne (by rw [← String.toList_ofList (l := cs), hempty]; rfl)
  not_isBlank c hc := h c (String.toList_ofList (l := cs) ▸ hc)

/-- The fields of a list of characters. -/
def fieldsOfChars (cs : List Char) : List String :=
  ((splitWhere isBlank cs).filter (fun piece => !piece.isEmpty)).map String.ofList

theorem fields_eq (s : String) : fields s = fieldsOfChars s.toList := rfl

theorem fieldsOfChars_blank {c : Char} (h : isBlank c = true) (cs : List Char) :
    fieldsOfChars (c :: cs) = fieldsOfChars cs := by
  unfold fieldsOfChars
  rw [splitWhere, if_pos h, List.filter_cons_of_neg (by simp)]

theorem fieldsOfChars_last {w : String} (h : IsWord w) : fieldsOfChars w.toList = [w] := by
  unfold fieldsOfChars
  rw [splitWhere_eq_singleton h.not_isBlank, List.filter_cons_of_pos (by simp [h.toList_ne_nil])]
  simp

theorem fieldsOfChars_word {w : String} (h : IsWord w) {c : Char} (hc : isBlank c = true)
    (cs : List Char) : fieldsOfChars (w.toList ++ c :: cs) = w :: fieldsOfChars cs := by
  unfold fieldsOfChars
  rw [splitWhere_append_cons cs h.not_isBlank hc,
    List.filter_cons_of_pos (by simp [h.toList_ne_nil]), List.map_cons, String.ofList_toList]

theorem FieldsOf.fieldsOfChars_eq {cs : List Char} {ws : List String} (h : FieldsOf cs ws) :
    fieldsOfChars cs = ws := by
  induction h with
  | nil => rfl
  | blank hc _ ih => rw [fieldsOfChars_blank hc, ih]
  | last hw => exact fieldsOfChars_last hw
  | word hw hc _ ih => rw [fieldsOfChars_word hw hc, ih]

/-- Any characters are words with blanks around them. -/
theorem exists_fieldsOf (cs : List Char) : ∃ ws, FieldsOf cs ws := by
  induction hlength : cs.length using Nat.strongRecOn generalizing cs with
  | ind n ih =>
    subst hlength
    cases hcs : cs with
    | nil => exact ⟨[], .nil⟩
    | cons c rest =>
      cases hc : isBlank c with
      | true =>
        obtain ⟨ws, hws⟩ := ih rest.length (by rw [hcs]; exact Nat.lt_succ_self _) rest rfl
        exact ⟨ws, .blank hc hws⟩
      | false =>
        -- A word starts here, and goes up to the first blank or to the end.
        have hcut : c :: rest = (c :: rest).takeWhile (fun d => !isBlank d)
            ++ (c :: rest).dropWhile (fun d => !isBlank d) := List.takeWhile_append_dropWhile.symm
        have hword : IsWord (String.ofList ((c :: rest).takeWhile fun d => !isBlank d)) := by
          refine isWord_ofList ?_ fun d hd => ?_
          · rw [List.takeWhile_cons_of_pos (by simp [hc])]
            exact List.cons_ne_nil _ _
          · simpa using List.mem_takeWhile_imp hd
        rw [hcut]
        cases hafter : (c :: rest).dropWhile (fun d => !isBlank d) with
        | nil =>
          rw [List.append_nil, ← String.toList_ofList (l := List.takeWhile _ _)]
          exact ⟨_, .last hword⟩
        | cons d after =>
          have hd : isBlank d = true := by
            have := List.head_dropWhile_not (fun d => !isBlank d) (l := c :: rest)
              (by rw [hafter]; exact List.cons_ne_nil _ _)
            simpa [hafter] using this
          have hshort : after.length < cs.length := by
            rw [hcs, hcut, hafter, List.length_append, List.length_cons]
            omega
          obtain ⟨ws, hws⟩ := ih after.length hshort after rfl
          rw [← String.toList_ofList (l := List.takeWhile _ _)]
          exact ⟨_, .word hword hd hws⟩

/-- The fields of a text are its words, and it has no others. -/
theorem fields_eq_iff (s : String) (ws : List String) : fields s = ws ↔ FieldsOf s.toList ws := by
  rw [fields_eq]
  constructor
  · rintro rfl
    obtain ⟨ws, hws⟩ := exists_fieldsOf s.toList
    rw [hws.fieldsOfChars_eq]
    exact hws
  · exact FieldsOf.fieldsOfChars_eq

theorem fieldsOf_fields (s : String) : FieldsOf s.toList (fields s) := (fields_eq_iff s _).1 rfl

/-- Blanks alone are no words. -/
theorem fields_of_isAllBlank {s : String} (h : isAllBlank s = true) : fields s = [] := by
  have hblank {cs : List Char} (h : ∀ c ∈ cs, isBlank c = true) : FieldsOf cs [] := by
    induction cs with
    | nil => exact .nil
    | cons c cs ih =>
      exact .blank (h c (List.mem_cons_self ..)) (ih fun d hd => h d (List.mem_cons_of_mem _ hd))
  exact (fields_eq_iff s []).2 (hblank (List.all_eq_true.1 h))

/-- Every field is a word. -/
theorem FieldsOf.isWord {cs : List Char} {ws : List String} (h : FieldsOf cs ws) :
    ∀ w ∈ ws, IsWord w := by
  induction h with
  | nil => exact nofun
  | blank _ _ ih => exact ih
  | last hw =>
    intro w hmem
    rwa [List.mem_singleton.1 hmem]
  | word hw _ _ ih => exact List.forall_mem_cons.2 ⟨hw, ih⟩

/-! ## Numerals -/

theorem isBlank_of_isDigit {c : Char} (h : c.isDigit = true) : isBlank c = false := by
  obtain ⟨hlow, hhigh⟩ := toNat_of_isDigit h
  simp only [isBlank, blankRanges, List.any_cons, List.any_nil, Bool.or_false,
    Bool.or_eq_false_iff, Bool.and_eq_false_iff, decide_eq_false_iff_not]
  omega

/-- A numeral is a word. -/
theorem Spells.isWord {signed : Bool} {s : String} {m : Int} (h : Spells signed s.toList m) :
    IsWord s := by
  have hword : s.toList ≠ [] ∧ ∀ c ∈ s.toList, isBlank c = false := by
    have hdigits {ds : List Char} (hds : IsDigits ds) : ∀ c ∈ ds, isBlank c = false :=
      fun c hc => isBlank_of_isDigit (hds.isDigit c hc)
    cases hcs : s.toList with
    | nil => rw [hcs] at h; cases h with | plain hds => exact absurd rfl hds.ne_nil
    | cons c cs =>
      rw [hcs] at h
      refine ⟨List.cons_ne_nil c cs, ?_⟩
      cases h with
      | plain hds => exact hdigits hds
      | plus hds => exact List.forall_mem_cons.2 ⟨by decide, hdigits hds⟩
      | minus hds _ => exact List.forall_mem_cons.2 ⟨by decide, hdigits hds⟩
  exact ⟨fun hempty => hword.1 (String.toList_eq_nil_iff.2 hempty), hword.2⟩

/-! ## Trimming -/

theorem dropWhile_isBlank_eq_self {cs : List Char}
    (h : ∀ c, cs.head? = some c → isBlank c = false) : cs.dropWhile isBlank = cs := by
  cases cs with
  | nil => rfl
  | cons c cs => exact List.dropWhile_cons_of_neg (by simp [h c rfl])

/-- A text that neither starts nor ends with a blank is left as it is. -/
theorem trim_eq_self {s : String} (hhead : ∀ c, s.toList.head? = some c → isBlank c = false)
    (hlast : ∀ c, s.toList.getLast? = some c → isBlank c = false) : trim s = s := by
  unfold trim trimChars
  rw [dropWhile_isBlank_eq_self hhead, dropWhile_isBlank_eq_self, List.reverse_reverse,
    String.ofList_toList]
  rw [List.head?_reverse]
  exact hlast

/-- A text from one word to another is left as it is, whatever stands between them. -/
theorem trim_of_words {s v w : String} {mid : List Char} (hv : IsWord v) (hw : IsWord w)
    (h : s.toList = v.toList ++ (mid ++ w.toList)) : trim s = s := by
  apply trim_eq_self
  · intro c hc
    rw [h, List.head?_append, Option.or_eq_some_iff, List.head?_eq_none_iff] at hc
    rcases hc with hc | ⟨hnil, -⟩
    · exact hv.not_isBlank c (List.mem_of_head? hc)
    · exact absurd hnil hv.toList_ne_nil
  · intro c hc
    rw [h, ← List.append_assoc, List.getLast?_append, Option.or_eq_some_iff,
      List.getLast?_eq_none_iff] at hc
    rcases hc with hc | ⟨hnil, -⟩
    · exact hw.not_isBlank c (List.mem_of_getLast? hc)
    · exact absurd hnil hw.toList_ne_nil

theorem IsWord.trim_eq_self {w : String} (h : IsWord w) : trim w = w :=
  Text.trim_eq_self (fun c hc => h.not_isBlank c (List.mem_of_head? hc))
    fun c hc => h.not_isBlank c (List.mem_of_getLast? hc)

/-- Nothing is left of blanks, and something of any other text. -/
theorem isEmpty_trim (s : String) : (trim s).isEmpty = isAllBlank s := by
  have hempty : (trim s).isEmpty = true ↔ isAllBlank s = true := by
    rw [String.isEmpty_iff, ← String.toList_eq_nil_iff, trim, String.toList_ofList, trimChars,
      List.reverse_eq_nil_iff, List.dropWhile_eq_nil_iff, isAllBlank, List.all_eq_true]
    constructor
    · intro h
      refine List.dropWhile_eq_nil_iff.1 ?_
      -- What is left starts with another character than a blank, if it starts with any.
      cases hdrop : s.toList.dropWhile isBlank with
      | nil => rfl
      | cons c cs =>
        have hc : isBlank c = true := h c (by rw [hdrop]; simp)
        have := List.head_dropWhile_not isBlank (l := s.toList)
          (by rw [hdrop]; exact List.cons_ne_nil _ _)
        simp [hdrop, hc] at this
    · intro h c hc
      exact h c ((List.dropWhile_sublist isBlank).mem (List.mem_reverse.1 hc))
  exact Bool.eq_iff_iff.2 hempty

end AgreedOrder.Text
