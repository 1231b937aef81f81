/-
  AgreedOrder.Proofs.Json.Document

  The value of a document. A document has a value just where the tokens of that
  value are written in it, with whatever blanks between them. Around an object
  there may be blanks as well, on either side, and nothing else.

    * `Value.parse?_eq_some_iff` — the documents that have a value.
    * `blanks_of_parse?_append`, `blanks_of_parse?_prepend` — around an object.
-/

import AgreedOrder.Proofs.Json.Value
import AgreedOrder.Proofs.Json.Written

namespace AgreedOrder.Json

/-! ## Documents -/

theorem Lexeme.exists_mark {l : Bytes} {t : Token} (h : Lexeme l t)
    (ht : t = .comma ∨ t = .closeArray ∨ t = .closeObject) : ∃ b, l = [b] ∧ mark? b = some t := by
  cases h with
  | mark h => exact ⟨_, rfl, h⟩
  | _ => simp at ht

theorem ends_of_isSpace {b : UInt8} (h : isSpace b = true) :
    isDigit b = false ∧ b ≠ 0x2E ∧ b ≠ 0x65 ∧ b ≠ 0x45 := by
  have hall : ∀ b, isSpace b = true → isDigit b = false ∧ b ≠ 0x2E ∧ b ≠ 0x65 ∧ b ≠ 0x45 :=
    forall_byte (by decide +kernel)
  exact hall b h

theorem ends_of_mark? {b : UInt8} {t : Token} (h : mark? b = some t) :
    isDigit b = false ∧ b ≠ 0x2E ∧ b ≠ 0x65 ∧ b ≠ 0x45 := by
  have hall : ∀ b, (mark? b).isSome = true →
      isDigit b = false ∧ b ≠ 0x2E ∧ b ≠ 0x65 ∧ b ≠ 0x45 := forall_byte (by decide +kernel)
  exact hall b (by rw [h]; rfl)

/-- A number ends before whatever may follow it: nothing more, or a comma or a closing bracket,
    with blanks before it or not. -/
theorem Written.endsNumber_append {bs : Bytes} {ts : List Token} (h : Written bs ts)
    (hts : ∀ t, ts.head? = some t → t = .comma ∨ t = .closeArray ∨ t = .closeObject) {rest : Bytes}
    (hrest : ts = [] → EndsNumber rest) : EndsNumber (bs ++ rest) := by
  intro b hb
  cases h with
  | nil => exact hrest rfl b hb
  | blank hspace _ =>
    cases hb
    exact ends_of_isSpace hspace
  | token hl _ =>
    obtain ⟨c, rfl, hmark⟩ := hl.exists_mark (hts _ rfl)
    cases hb
    exact ends_of_mark? hmark

/-- Written tokens that are part of a value are the tokens that are read. A number at their end
    must end there. -/
theorem Written.tokens?_append {bs : Bytes} {ts : List Token} (h : Written bs ts)
    {s s' : ReadState} (hrun : ts.foldlM ReadState.step s = some s') {rest : Bytes}
    (hends : ∀ v, ts.getLast? = some (.number v) → EndsNumber rest) :
    tokens? (bs ++ rest) = (tokens? rest).map (ts ++ ·) := by
  induction h generalizing s with
  | nil => exact (Option.map_id' ..).symm
  | @blank b bs ts hspace _ ih =>
    rw [List.cons_append, tokens?, if_pos hspace]
    exact ih hrun hends
  | @token l bs t ts hl hbs ih =>
    rw [List.foldlM_cons] at hrun
    obtain ⟨s₁, hstep, hrun⟩ := Option.bind_eq_some_iff.1 hrun
    have htail : ∀ v, ts.getLast? = some (.number v) → EndsNumber rest := fun v hv =>
      hends v (by rw [List.getLast?_cons, hv]; rfl)
    rw [List.append_assoc, hl.tokens?_append, ih hrun htail, Option.map_map]
    · rfl
    · -- After a number, the reader takes only what ends it.
      rintro v rfl
      obtain ⟨stack, rfl⟩ := exists_after_of_step_number hstep
      refine hbs.endsNumber_append (fun t ht => ?_) fun hnil => hends v (by rw [hnil]; rfl)
      obtain ⟨ts, rfl⟩ := List.head?_eq_some_iff.1 ht
      obtain ⟨s₂, hnext, -⟩ := Option.bind_eq_some_iff.1 hrun
      exact closes_of_step hnext

theorem endsNumber_nil : EndsNumber [] := fun _ hb => nomatch hb

theorem Written.tokens?_eq {bs : Bytes} {ts : List Token} (h : Written bs ts)
    {s s' : ReadState} (hrun : ts.foldlM ReadState.step s = some s') : tokens? bs = some ts := by
  have hread := h.tokens?_append hrun fun _ _ => endsNumber_nil
  rwa [List.append_nil, tokens?, Option.map_some, List.append_nil] at hread

/-- A document has a value just where the tokens of that value are written in it. -/
theorem Value.parse?_eq_some_iff {d : Bytes} {v : Value} :
    Value.parse? d = some v ↔ Written d v.tokens := by
  constructor
  · intro h
    obtain ⟨ts, hts, hvalue⟩ := Option.bind_eq_some_iff.1 h
    rw [← Value.ofTokens?_eq_some_iff.1 hvalue]
    exact written_of_tokens? hts
  · intro h
    unfold Value.parse?
    rw [h.tokens?_eq (v.taken []), Option.bind_some]
    exact Value.ofTokens?_eq_some_iff.2 rfl

/-! ## Around an object -/

section Around

variable {members : List (Option String × Value)} {d x : Bytes} {v : Value}

theorem tokens_object_getLast? (members : List (Option String × Value)) :
    (Value.object members).tokens.getLast? = some .closeObject := by
  rw [Value.tokens, ← List.cons_append, List.getLast?_concat]

/-- Only blanks may follow an object. -/
theorem blanks_of_parse?_append (h : Written d (Value.object members).tokens)
    (hparse : Value.parse? (d ++ x) = some v) : Blanks x := by
  have hv := (Value.parse?_eq_some_iff.1 hparse).tokens?_eq (v.taken [])
  rw [h.tokens?_append (Value.taken _ []) (by simp [tokens_object_getLast?])] at hv
  obtain ⟨xs, hxs, htokens⟩ := Option.map_eq_some_iff.1 hv
  have hrun := v.taken []
  rw [← htokens, List.foldlM_append, Value.taken (.object members), Option.bind_eq_bind,
    Option.bind_some] at hrun
  cases xs with
  | nil => exact (written_of_tokens? hxs).blanks
  | cons t xs =>
    rw [List.foldlM_cons, step_after_nil] at hrun
    cases hrun

/-- A document that holds an object starts with a blank or with the bracket of the object. -/
theorem Written.exists_isOpening {ts : List Token} (h : Written d (.openObject :: ts)) :
    ∃ c bs, d = c :: bs ∧ isOpening c = true := by
  generalize hts : Token.openObject :: ts = us at h
  cases h with
  | nil => cases hts
  | blank hspace _ => exact ⟨_, _, rfl, by unfold isOpening; rw [hspace, Bool.true_or]⟩
  | token hl _ =>
    cases hts
    cases hl with
    | @mark b _ hmark =>
      have hall : ∀ b, mark? b = some .openObject → isOpening b = true :=
        forall_byte (by decide +kernel)
      exact ⟨b, _, rfl, hall b hmark⟩

/-- Only blanks may stand before an object. -/
theorem blanks_of_parse?_prepend (h : Written d (Value.object members).tokens)
    (hparse : Value.parse? (x ++ d) = some v) : Blanks x := by
  have hv := Value.parse?_eq_some_iff.1 hparse
  obtain ⟨c, bs, rfl, hc⟩ := Written.exists_isOpening (by rwa [Value.tokens] at h)
  obtain ⟨xs, ts, hxs, hts, htokens⟩ := hv.exists_of_append hc h
  have hrun := v.taken []
  rw [htokens, List.foldlM_append] at hrun
  obtain ⟨s, hbefore, hrun⟩ := Option.bind_eq_some_iff.1 hrun
  -- The tokens of the second half are those of the object.
  have hobject : ts = (Value.object members).tokens :=
    Option.some.inj ((hts.tokens?_eq hrun).symm.trans (h.tokens?_eq (Value.taken _ [])))
  rw [hobject] at hrun
  have hstart := eq_value_nil_of_foldlM hrun
  -- Nothing was read before it.
  have hnone := ReadState.tokens_of_foldlM hbefore
  rw [hstart] at hnone
  obtain rfl : xs = [] := hnone.symm
  exact hxs.blanks

end Around

end AgreedOrder.Json
