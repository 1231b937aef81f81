/-
  AgreedOrder.Proofs.LineReader

  What the line reader hands on depends on the bytes alone, not on the chunks
  that they come in. The bytes are cut at their line feeds, and each line is
  judged on its own: it is handed on, it is too long, or it is no text.

  Main statement: `readAll_eq_items`. It follows from what one call of `drain`
  keeps (`drain_ahead`): the items handed on, together with those that the
  reader has ahead of it, whatever bytes may come, stay the same.
-/

import Mathlib.Data.List.TakeWhile
import AgreedOrder.LineReader
import AgreedOrder.Text.Split

namespace AgreedOrder.LineReader

/-! ## Lines of a byte string -/

/-- The byte that ends a line. -/
def isLineFeed (b : UInt8) : Bool := b == 0x0A

/-- The lines of a byte string that end at a line feed, without it. -/
def terminated (bs : Bytes) : List Bytes := (Text.splitWhere isLineFeed bs).dropLast

/-- What stands after the last line feed. -/
def unterminated (bs : Bytes) : Bytes := (Text.splitWhere isLineFeed bs).getLastD []

/-- The lines of a byte string. What stands after the last line feed is a line unless it is
    empty. -/
def lines (bs : Bytes) : List Bytes :=
  terminated bs ++ if unterminated bs = [] then [] else [unterminated bs]

section Cutting

variable {l rest : Bytes}

theorem isLineFeed_eq_false (h : (0x0A : UInt8) ∉ l) : ∀ b ∈ l, isLineFeed b = false := by
  intro b hb
  simp only [isLineFeed, beq_eq_false_iff_ne]
  rintro rfl
  exact h hb

theorem terminated_of_not_mem (h : (0x0A : UInt8) ∉ l) : terminated l = [] := by
  rw [terminated, Text.splitWhere_eq_singleton (isLineFeed_eq_false h)]
  rfl

theorem unterminated_of_not_mem (h : (0x0A : UInt8) ∉ l) : unterminated l = l := by
  rw [unterminated, Text.splitWhere_eq_singleton (isLineFeed_eq_false h)]
  rfl

theorem terminated_append_cons (h : (0x0A : UInt8) ∉ l) (rest : Bytes) :
    terminated (l ++ 0x0A :: rest) = l :: terminated rest := by
  rw [terminated, Text.splitWhere_append_cons rest (isLineFeed_eq_false h) rfl,
    List.dropLast_cons_of_ne_nil (Text.splitWhere_ne_nil _ _)]
  rfl

theorem unterminated_append_cons (h : (0x0A : UInt8) ∉ l) (rest : Bytes) :
    unterminated (l ++ 0x0A :: rest) = unterminated rest := by
  have hne := Text.splitWhere_ne_nil isLineFeed rest
  rw [unterminated, Text.splitWhere_append_cons rest (isLineFeed_eq_false h) rfl, unterminated,
    List.getLastD_eq_getLast?, List.getLastD_eq_getLast?, List.getLast?_cons_of_ne_nil hne]

@[simp] theorem lines_nil : lines [] = [] := rfl

theorem lines_append_cons (h : (0x0A : UInt8) ∉ l) (rest : Bytes) :
    lines (l ++ 0x0A :: rest) = l :: lines rest := by
  simp [lines, terminated_append_cons h, unterminated_append_cons h]

/-- What stands after the first line feed. -/
def afterLine (bs : Bytes) : Bytes := (bs.dropWhile fun b => !isLineFeed b).tail

theorem afterLine_of_not_mem (h : (0x0A : UInt8) ∉ l) : afterLine l = [] := by
  rw [afterLine, List.dropWhile_eq_nil_iff.2]
  · rfl
  · intro b hb
    simp [isLineFeed_eq_false h b hb]

theorem afterLine_append (h : (0x0A : UInt8) ∉ l) (rest : Bytes) :
    afterLine (l ++ rest) = afterLine rest := by
  rw [afterLine, List.dropWhile_append_of_pos]
  · rfl
  · intro b hb
    simp [isLineFeed_eq_false h b hb]

theorem afterLine_append_cons (h : (0x0A : UInt8) ∉ l) (rest : Bytes) :
    afterLine (l ++ 0x0A :: rest) = rest := by
  rw [afterLine_append h]
  rfl

end Cutting

/-! ## Items of a byte string -/

/-- What is read for a line. -/
def judge (maxLength : Nat) (line : Bytes) : LineItem :=
  if line.length ≤ maxLength then item line else .tooLong

/-- What is read for the bytes after the last line feed. A carriage return alone is passed over,
    as nothing is, if it is not too long. -/
def judgeRest (maxLength : Nat) (rest : Bytes) : List LineItem :=
  if rest = [] ∨ rest = [0x0D] ∧ 1 ≤ maxLength then [] else [judge maxLength rest]

/-- What is read for a byte string. -/
def items (maxLength : Nat) (bs : Bytes) : List LineItem :=
  (terminated bs).map (judge maxLength) ++ judgeRest maxLength (unterminated bs)

section Items

variable {maxLength : Nat} {l bs : Bytes}

@[simp] theorem items_nil (maxLength : Nat) : items maxLength [] = [] := rfl

theorem items_of_not_mem (h : (0x0A : UInt8) ∉ l) : items maxLength l = judgeRest maxLength l := by
  rw [items, terminated_of_not_mem h, unterminated_of_not_mem h]
  rfl

theorem items_append_cons (h : (0x0A : UInt8) ∉ l) (rest : Bytes) :
    items maxLength (l ++ 0x0A :: rest) = judge maxLength l :: items maxLength rest := by
  rw [items, terminated_append_cons h, unterminated_append_cons h]
  rfl

theorem judge_of_lt (h : maxLength < l.length) : judge maxLength l = .tooLong :=
  if_neg (Nat.not_le.2 h)

theorem judgeRest_of_lt (h : maxLength < l.length) : judgeRest maxLength l = [.tooLong] := by
  rw [judgeRest, if_neg, judge_of_lt h]
  rintro (rfl | ⟨rfl, hone⟩)
  · exact Nat.not_lt_zero _ h
  · exact Nat.not_lt.2 hone h

/-- A first line that does not end within the limit is too long, and what is read goes on after
    its end. -/
theorem items_of_long (hlf : (0x0A : UInt8) ∉ bs.take (maxLength + 1))
    (hlen : maxLength < bs.length) :
    items maxLength bs = .tooLong :: items maxLength (afterLine bs) := by
  by_cases hmem : (0x0A : UInt8) ∈ bs
  · obtain ⟨l, rest, rfl, hl⟩ := List.eq_append_cons_of_mem hmem
    have hlong : maxLength < l.length := by
      -- Otherwise the line feed stands within the limit.
      apply Nat.lt_of_not_le
      intro hle
      apply hlf
      rw [List.mem_take_iff_getElem]
      exact ⟨l.length, by simp only [List.length_append, List.length_cons]; omega, by simp⟩
    rw [items_append_cons hl, afterLine_append_cons hl, judge_of_lt hlong]
  · rw [items_of_not_mem hmem, afterLine_of_not_mem hmem, judgeRest_of_lt hlen, items_nil]

/-- What is read is the judgement of every line, but for an empty line at the end. -/
theorem map_judge_lines (maxLength : Nat) (bs : Bytes) :
    (lines bs).map (judge maxLength) = items maxLength bs ∨
      (lines bs).map (judge maxLength) = items maxLength bs ++ [.line ""] := by
  rw [lines, items, judgeRest, List.map_append]
  by_cases hnil : unterminated bs = []
  · simp [hnil]
  · by_cases hreturn : unterminated bs = [0x0D] ∧ 1 ≤ maxLength
    · right
      have hempty : judge maxLength [0x0D] = .line "" := if_pos hreturn.2
      simp [hreturn, hempty]
    · left
      simp [hnil, hreturn]

end Items

/-! ## The search for a line feed -/

/-- No line feed stands where the reader has searched. -/
def Sound (r : LineReader) : Prop := (0x0A : UInt8) ∉ r.buffer.take r.searched

section Search

variable {r : LineReader}

theorem sound_of_searched (h : r.searched = 0) : r.Sound := by
  simp [Sound, h]

theorem not_mem_of_lineFeed?_eq_none (hs : r.Sound) (h : r.lineFeed? = none) :
    (0x0A : UInt8) ∉ r.buffer.take r.window := by
  intro hmem
  simp only [lineFeed?, Option.map_eq_none_iff, List.findIdx?_eq_none_iff, beq_eq_false_iff_ne]
    at h
  obtain ⟨i, hi, heq⟩ := List.mem_take_iff_getElem.1 hmem
  by_cases hlt : i < r.searched
  · exact hs (List.mem_take_iff_getElem.2 ⟨i, by omega, heq⟩)
  · refine h _ (List.mem_drop_iff_getElem.2 ⟨i - r.searched, ?_, ?_⟩) rfl
    · simp only [List.length_take]
      omega
    · simp only [List.getElem_take]
      rw [← heq]
      congr 1
      omega

/-- The line feed that is found is the first one, and the line before it is within the limit. -/
theorem split_of_lineFeed?_eq_some (hs : r.Sound) {k : Nat} (h : r.lineFeed? = some k) :
    r.buffer = r.buffer.take k ++ 0x0A :: r.buffer.drop (k + 1) ∧
      (0x0A : UInt8) ∉ r.buffer.take k ∧ (r.buffer.take k).length ≤ r.maxLength := by
  have hlen := lt_length_of_lineFeed? h
  simp only [lineFeed?, Option.map_eq_some_iff] at h
  obtain ⟨i, hi, rfl⟩ := h
  obtain ⟨hlt, hat, hbefore⟩ := List.findIdx?_eq_some_iff_getElem.1 hi
  simp only [List.length_drop, List.length_take, window] at hlt
  simp only [List.getElem_drop, List.getElem_take, beq_iff_eq] at hat hbefore
  refine ⟨?_, ?_, ?_⟩
  · rw [← hat, List.getElem_cons_drop, List.take_append_drop]
  · intro hmem
    obtain ⟨j, hj, heq⟩ := List.mem_take_iff_getElem.1 hmem
    by_cases hjs : j < r.searched
    · exact hs (List.mem_take_iff_getElem.2 ⟨j, by omega, heq⟩)
    · refine hbefore (j - r.searched) (by omega) ?_
      rw [← heq]
      congr 1
      omega
  · simp only [List.length_take]
    omega

end Search

/-! ## What a reader has ahead of it -/

/-- What is still to be read if these bytes come and no more. -/
def ahead (r : LineReader) (more : Bytes) : List LineItem :=
  items r.maxLength
    (if r.discarding then afterLine (r.buffer ++ more) else r.buffer ++ more)

/-- A reader that waits for more: no line ends in its buffer, and the line begun there may still
    end within the limit. -/
structure Waiting (r : LineReader) : Prop where
  no_lineFeed : (0x0A : UInt8) ∉ r.buffer
  searched_le : r.searched ≤ r.buffer.length
  within : r.buffer.length ≤ r.maxLength
  discarded : r.discarding = true → r.buffer = []

/-- A chunk joins what has been searched. -/
theorem Waiting.sound {r : LineReader} (h : r.Waiting) (chunk : Bytes) :
    ({ r with buffer := r.buffer ++ chunk } : LineReader).Sound := by
  unfold Sound
  simp only [List.take_append_of_le_length h.searched_le]
  exact fun hmem => h.no_lineFeed (List.mem_of_mem_take hmem)

/-- Draining leaves a reader that waits. -/
theorem waiting_drain (r : LineReader) (hs : r.Sound) : (drain r).2.Waiting := by
  fun_induction drain r with
  | case1 r k hk hlt hd ih => exact ih (sound_of_searched rfl)
  | case2 r k hk hlt hd found rest heq ih =>
    rw [heq] at ih
    exact ih (sound_of_searched rfl)
  | case3 r hk hd hdrop => exact ⟨by simp, by simp, by simp, fun _ => rfl⟩
  | case4 r hk hd hdrop ih => exact ih (sound_of_searched rfl)
  | case5 r hk hd hlong found rest heq ih =>
    rw [heq] at ih
    exact ih hs
  | case6 r hk hd hlong =>
    have hwindow : r.window = r.buffer.length := by simp only [window]; omega
    have hnone := not_mem_of_lineFeed?_eq_none hs hk
    rw [hwindow, List.take_length] at hnone
    exact ⟨hnone, Nat.min_le_right _ _, Nat.not_lt.1 hlong, fun h => absurd h hd⟩

/-- Draining hands on what the reader had ahead of it first. -/
theorem drain_ahead (r : LineReader) (hs : r.Sound) (more : Bytes) :
    (drain r).1 ++ (drain r).2.ahead more = r.ahead more := by
  fun_induction drain r with
  | case1 r k hk hlt hd ih =>
    obtain ⟨hsplit, hno, -⟩ := split_of_lineFeed?_eq_some hs hk
    rw [ih (sound_of_searched rfl), ahead, ahead, if_neg Bool.false_ne_true, if_pos hd]
    conv => rhs; rw [hsplit, List.append_assoc, List.cons_append, afterLine_append_cons hno]
  | case2 r k hk hlt hd found rest heq ih =>
    obtain ⟨hsplit, hno, hshort⟩ := split_of_lineFeed?_eq_some hs hk
    rw [heq] at ih
    have hjudge : judge r.maxLength (r.buffer.take k) = item (r.buffer.take k) := if_pos hshort
    rw [List.cons_append, ih (sound_of_searched rfl), ahead, ahead, if_neg hd, if_neg hd]
    conv => rhs; rw [hsplit, List.append_assoc, List.cons_append, items_append_cons hno, hjudge]
  | case3 r hk hd hdrop =>
    have hno := not_mem_of_lineFeed?_eq_none hs hk
    have hall : r.buffer.take r.window = r.buffer := by
      rw [List.take_of_length_le (List.drop_eq_nil_iff.1 hdrop)]
    rw [hall] at hno
    rw [List.nil_append, ahead, ahead, if_pos hd, if_pos hd, afterLine_append hno,
      List.nil_append]
  | case4 r hk hd hdrop ih =>
    have hno := not_mem_of_lineFeed?_eq_none hs hk
    rw [ih (sound_of_searched rfl), ahead, ahead, if_pos hd, if_pos hd]
    conv =>
      rhs
      rw [← List.take_append_drop r.window r.buffer, List.append_assoc, afterLine_append hno]
  | case5 r hk hd hlong found rest heq ih =>
    have hno := not_mem_of_lineFeed?_eq_none hs hk
    have hwindow : r.window = r.maxLength + 1 := by simp only [window]; omega
    have hbegun : (0x0A : UInt8) ∉ (r.buffer ++ more).take (r.maxLength + 1) := by
      rw [List.take_append_of_le_length (Nat.succ_le_of_lt hlong)]
      rwa [hwindow] at hno
    have hlen : r.maxLength < (r.buffer ++ more).length := by
      simp only [List.length_append]
      omega
    rw [heq] at ih
    rw [List.cons_append, ih hs, ahead, ahead, if_pos rfl, if_neg hd, items_of_long hbegun hlen]
  | case6 r hk hd hlong => rfl

/-- At the end a reader that waits hands on what it had ahead of it. -/
theorem finish_eq_ahead {r : LineReader} (h : r.Waiting) : r.finish = r.ahead [] := by
  rw [ahead, List.append_nil]
  by_cases hd : r.discarding = true
  · rw [if_pos hd, finish, h.discarded hd, if_pos (Or.inl rfl)]
    rfl
  · have hjudge : judge r.maxLength r.buffer = item r.buffer := if_pos h.within
    have hone : r.buffer = [0x0D] → 1 ≤ r.maxLength := by
      intro heq
      have hle := h.within
      rw [heq] at hle
      exact hle
    rw [if_neg hd, items_of_not_mem h.no_lineFeed, finish, judgeRest, hjudge]
    congr 1
    simp only [eq_iff_iff]
    exact or_congr_right ⟨fun heq => ⟨heq, hone heq⟩, And.left⟩

/-! ## Chunks -/

theorem waiting_init (maxLength : Nat) : (init maxLength).Waiting :=
  ⟨by simp [init], by simp [init], by simp [init], fun _ => rfl⟩

theorem waiting_feed {r : LineReader} (h : r.Waiting) (chunk : Bytes) : (feed r chunk).2.Waiting :=
  waiting_drain _ (h.sound chunk)

/-- Reading a chunk moves its part from what is ahead to what is handed on. -/
theorem feed_ahead {r : LineReader} (h : r.Waiting) (chunk more : Bytes) :
    (feed r chunk).1 ++ (feed r chunk).2.ahead more = r.ahead (chunk ++ more) := by
  rw [feed, drain_ahead _ (h.sound chunk)]
  simp only [ahead, List.append_assoc]

/-- What a reader hands on for the chunks to come, and at their end. -/
def readFrom (r : LineReader) : List Bytes → List LineItem
  | [] => r.finish
  | chunk :: chunks => (feed r chunk).1 ++ readFrom (feed r chunk).2 chunks

theorem readAll_eq_readFrom (maxLength : Nat) (chunks : List Bytes) :
    readAll maxLength chunks = readFrom (init maxLength) chunks := by
  -- The loop of `readAll`, from any reader and with any items before it.
  have hloop (seen : List LineItem) (r : LineReader) :
      (let found := chunks.foldl
        (fun found chunk =>
          (found.1 ++ (feed found.2 chunk).1, (feed found.2 chunk).2)) (seen, r)
      found.1 ++ found.2.finish) = seen ++ readFrom r chunks := by
    induction chunks generalizing seen r with
    | nil => rfl
    | cons chunk chunks ih =>
      rw [readFrom, ← List.append_assoc, ← ih]
      rfl
  exact hloop [] (init maxLength)

theorem readFrom_eq_ahead {r : LineReader} (h : r.Waiting) (chunks : List Bytes) :
    readFrom r chunks = r.ahead chunks.flatten := by
  induction chunks generalizing r with
  | nil => exact finish_eq_ahead h
  | cons chunk chunks ih =>
    rw [readFrom, ih (waiting_feed h chunk), feed_ahead h, List.flatten_cons]

/-- What chunks amount to is what their bytes amount to, however they are cut. -/
theorem readAll_eq_items (maxLength : Nat) (chunks : List Bytes) :
    readAll maxLength chunks = items maxLength chunks.flatten := by
  rw [readAll_eq_readFrom, readFrom_eq_ahead (waiting_init maxLength)]
  rfl

end AgreedOrder.LineReader
