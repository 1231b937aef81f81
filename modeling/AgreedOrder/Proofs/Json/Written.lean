/-
  AgreedOrder.Proofs.Json.Written

  Documents as tokens with blanks between them. The tokens that are read are
  written there. Where a document is cut in two, its tokens are cut as well,
  if the second half is made of tokens too and starts with a blank or a
  bracket: no string can be open at the cut. A string that were open there
  would end at the first quote of the second half, and from then on what is
  inside a string and what is outside would have changed places, up to the
  end of the document.

    * `Written`, `written_of_tokens?` — the documents that tokens may stand in.
    * `Written.not_written_of_scan` — inside and outside do not change places.
    * `Written.exists_of_append` — the tokens of the two halves.
-/

import AgreedOrder.Proofs.Json.Lexeme

namespace AgreedOrder.Json

/-- These bytes are these tokens in this order, with whatever blanks between and around them. -/
inductive Written : Bytes → List Token → Prop
  | nil : Written [] []
  | blank {b : UInt8} {bs : Bytes} {ts : List Token} (hspace : isSpace b = true)
      (rest : Written bs ts) : Written (b :: bs) ts
  | token {l bs : Bytes} {t : Token} {ts : List Token} (lexeme : Lexeme l t)
      (rest : Written bs ts) : Written (l ++ bs) (t :: ts)

/-- The tokens that are read from a document are written there. -/
theorem written_of_tokens? {bs : Bytes} {ts : List Token} (h : tokens? bs = some ts) :
    Written bs ts := by
  fun_induction tokens? bs generalizing ts with
  | case1 =>
    cases h
    exact .nil
  | case2 b bs hspace ih => exact .blank hspace (ih h)
  | case3 => cases h
  | case4 b bs hspace t rest hread hlength ih =>
    obtain ⟨ts, hts, rfl⟩ := Option.map_eq_some_iff.1 h
    obtain ⟨l, hl, rfl⟩ := exists_lexeme_of_token? hread
    exact .token hl (ih hts)

/-! ## Blanks -/

/-- Bytes that are blanks between tokens. -/
def Blanks (bs : Bytes) : Prop := ∀ b ∈ bs, isSpace b = true

theorem Lexeme.ne_nil {l : Bytes} {t : Token} (h : Lexeme l t) : l ≠ [] := by
  cases h with
  | positive h =>
    cases h with
    | mk hds _ _ => exact fun hnil => hds.ne_nil (List.append_eq_nil_iff.1 hnil).1
  | _ => exact List.cons_ne_nil _ _

/-- Where no token is written, there are blanks only. -/
theorem Written.blanks {bs : Bytes} (h : Written bs []) : Blanks bs := by
  generalize hts : ([] : List Token) = ts at h
  induction h with
  | nil => exact List.forall_mem_nil _
  | blank hspace _ ih => exact List.forall_mem_cons.2 ⟨hspace, ih hts⟩
  | token => cases hts

theorem Written.append {x y : Bytes} {xs ys : List Token} (hx : Written x xs)
    (hy : Written y ys) : Written (x ++ y) (xs ++ ys) := by
  induction hx with
  | nil => exact hy
  | blank hspace _ ih => exact .blank hspace ih
  | token hl _ ih =>
    rw [List.append_assoc]
    exact .token hl ih

theorem Blanks.written {x : Bytes} (h : Blanks x) : Written x [] := by
  induction x with
  | nil => exact .nil
  | cons b x ih => exact .blank (h b (List.mem_cons_self ..)) (ih fun c hc => h c (.tail _ hc))

/-! ## Bytes of a token -/

/-- Whether a byte may stand in a token of more than one byte that is no string. -/
def isInner (b : UInt8) : Bool :=
  !isSpace b && (mark? b).isNone && b != 0x22 && b != 0x5C && 0x20 ≤ b

theorem isInner_of_isDigit {b : UInt8} (h : isDigit b = true) : isInner b = true := by
  have hall : ∀ b, isDigit b = true → isInner b = true := forall_byte (by decide +kernel)
  exact hall b h

/-- A mark stands for itself in a string. -/
theorem plain_of_mark? {b : UInt8} {t : Token} (h : mark? b = some t) :
    b ≠ 0x22 ∧ b ≠ 0x5C ∧ ¬b < 0x20 := by
  have hall : ∀ b, (mark? b).isSome = true → b ≠ 0x22 ∧ b ≠ 0x5C ∧ ¬b < 0x20 :=
    forall_byte (by decide +kernel)
  exact hall b (by rw [h]; rfl)

theorem plain_of_isInner {b : UInt8} (h : isInner b = true) :
    b ≠ 0x22 ∧ b ≠ 0x5C ∧ ¬b < 0x20 := by
  unfold isInner at h
  simp only [Bool.and_eq_true, bne_iff_ne, decide_eq_true_eq] at h
  exact ⟨h.1.1.2, h.1.2, UInt8.not_lt.2 h.2⟩

theorem IsDigits.isInner {ds : Bytes} (h : IsDigits ds) : ∀ b ∈ ds, Json.isInner b = true :=
  fun b hb => isInner_of_isDigit (h.isDigit b hb)

theorem Numeral.isInner {negative : Bool} {l : Bytes} {v : Option Int}
    (h : Numeral negative l v) : ∀ b ∈ l, Json.isInner b = true := by
  obtain @⟨ds, f, e, _, _, hds, hf, he⟩ := h
  have hfraction : ∀ b ∈ f, Json.isInner b = true := by
    cases hf with
    | absent => exact List.forall_mem_nil _
    | present hds => exact List.forall_mem_cons.2 ⟨by decide, hds.isInner⟩
  have hexponent : ∀ b ∈ e, Json.isInner b = true := by
    cases he with
    | absent => exact List.forall_mem_nil _
    | present he hsign hds =>
      refine List.forall_mem_cons.2 ⟨?_, List.forall_mem_append.2 ⟨?_, hds.isInner⟩⟩
      · rcases he with rfl | rfl
        · decide
        · decide
      · rcases hsign with rfl | rfl | rfl
        · exact List.forall_mem_nil _
        · exact List.forall_mem_singleton.2 rfl
        · exact List.forall_mem_singleton.2 rfl
  exact List.forall_mem_append.2
    ⟨hds.toIsDigits.isInner, List.forall_mem_append.2 ⟨hfraction, hexponent⟩⟩

/-- A token is a mark, or made of inner bytes, or a string. -/
theorem Lexeme.bytes {l : Bytes} {t : Token} (h : Lexeme l t) :
    (∃ b t, l = [b] ∧ mark? b = some t) ∨ (∀ b ∈ l, isInner b = true) ∨
      ∃ body ps, l = 0x22 :: (body ++ [0x22]) ∧ StringBody body ps := by
  cases h with
  | mark h => exact .inl ⟨_, _, rfl, h⟩
  | nullWord => exact .inr (.inl (List.all_eq_true.1 rfl))
  | trueWord => exact .inr (.inl (List.all_eq_true.1 rfl))
  | falseWord => exact .inr (.inl (List.all_eq_true.1 rfl))
  | positive h => exact .inr (.inl h.isInner)
  | negative h => exact .inr (.inl (List.forall_mem_cons.2 ⟨by decide, h.isInner⟩))
  | string h => exact .inr (.inr ⟨_, _, rfl, h⟩)

/-- A token holds no quote and nothing that is escaped, or it is a string. -/
theorem Lexeme.plain {l : Bytes} {t : Token} (h : Lexeme l t) :
    (∀ b ∈ l, b ≠ 0x22 ∧ b ≠ 0x5C ∧ ¬b < 0x20) ∨
      ∃ body ps, l = 0x22 :: (body ++ [0x22]) ∧ StringBody body ps := by
  obtain ⟨b, t, rfl, hmark⟩ | hinner | hstring := h.bytes
  · exact .inl (List.forall_mem_singleton.2 (plain_of_mark? hmark))
  · exact .inl fun b hb => plain_of_isInner (hinner b hb)
  · exact .inr hstring

/-! ## Inside and outside -/

/-- No token starts with a backslash. -/
theorem not_written_backslash (bs : Bytes) (ts : List Token) : ¬Written (0x5C :: bs) ts := by
  intro h
  generalize hbytes : 0x5C :: bs = z at h
  cases h with
  | nil => cases hbytes
  | blank hspace _ =>
    obtain ⟨rfl, -⟩ := List.cons.inj hbytes
    cases hspace
  | token hl _ =>
    obtain ⟨b, l, rfl⟩ := List.exists_cons_of_ne_nil hl.ne_nil
    obtain ⟨rfl, -⟩ := List.cons.inj hbytes
    obtain hplain | ⟨body, ps, hstring, -⟩ := hl.plain
    · exact (hplain _ (List.mem_cons_self ..)).2.1 rfl
    · cases (List.cons.inj hstring).1

/-- A token that starts with a quote is a string. -/
theorem exists_scan_of_written_quote {bs : Bytes} {ts : List Token} (h : Written (0x22 :: bs) ts) :
    ∃ ps rest ts', scan bs = some (ps, rest) ∧ Written rest ts' := by
  generalize hbytes : 0x22 :: bs = z at h
  cases h with
  | nil => cases hbytes
  | blank hspace _ =>
    obtain ⟨rfl, -⟩ := List.cons.inj hbytes
    cases hspace
  | token hl hrest =>
    obtain ⟨b, l, rfl⟩ := List.exists_cons_of_ne_nil hl.ne_nil
    obtain ⟨rfl, rfl⟩ := List.cons.inj hbytes
    obtain hplain | ⟨body, ps, hstring, hbody⟩ := hl.plain
    · exact absurd rfl (hplain _ (List.mem_cons_self ..)).1
    · obtain ⟨-, rfl⟩ := List.cons.inj hstring
      refine ⟨ps, _, _, ?_, hrest⟩
      show scan (body ++ [0x22] ++ _) = _
      rw [List.append_assoc]
      exact hbody.scan_append _

/-- Before a quote or a backslash the tokens are cut. -/
theorem Written.exists_of_plain_append {c : UInt8} (hc : c = 0x22 ∨ c = 0x5C) {p bs : Bytes}
    (hp : ∀ b ∈ p, b ≠ 0x22 ∧ b ≠ 0x5C) {ts : List Token} (h : Written (p ++ c :: bs) ts) :
    ∃ ts', Written (c :: bs) ts' := by
  generalize hz : p ++ c :: bs = z at h
  induction h generalizing p with
  | nil => exact absurd (List.append_eq_nil_iff.1 hz).2 (List.cons_ne_nil _ _)
  | @blank b z ts hspace hrest ih =>
    cases p with
    | nil =>
      rw [List.nil_append] at hz
      exact ⟨ts, hz ▸ .blank hspace hrest⟩
    | cons b p => exact ih (fun b hb => hp b (.tail _ hb)) (List.cons.inj hz).2
  | @token l z t ts hl hrest ih =>
    rcases List.append_eq_append_iff.1 hz with ⟨as, rfl, has⟩ | ⟨q, rfl, rfl⟩
    · cases p with
      | nil =>
        rw [has]
        exact ⟨_, .token hl hrest⟩
      | cons b p =>
        cases as with
        | nil =>
          rw [has]
          exact ⟨ts, hrest⟩
        | cons a as =>
          -- The token goes on over the cut, and is no string.
          obtain ⟨rfl, -⟩ := List.cons.inj has
          obtain hplain | ⟨body, ps, hstring, -⟩ := hl.plain
          · have := hplain c (by simp)
            exact absurd hc (not_or.2 ⟨this.1, this.2.1⟩)
          · exact absurd (List.cons.inj hstring).1 (hp b (List.mem_cons_self ..)).1
    · exact ih (fun b hb => hp b (List.mem_append_right _ hb)) rfl

/-- The inside of a string is not made of tokens up to its closing quote, if what follows that
    quote is not the inside of a string before more tokens. -/
theorem StringBody.not_written {body w : Bytes} {ps : List Piece} (h : StringBody body ps)
    (hw : ∀ ps rest ts, scan w = some (ps, rest) → ¬Written rest ts) {p : Bytes}
    (hp : ∀ b ∈ p, b ≠ 0x22 ∧ b ≠ 0x5C) (ts : List Token) :
    ¬Written (p ++ (body ++ 0x22 :: w)) ts := by
  intro hwritten
  induction h generalizing p with
  | nil =>
    obtain ⟨ts, hts⟩ := hwritten.exists_of_plain_append (.inl rfl) hp
    obtain ⟨ps, rest, ts, hscan, hrest⟩ := exists_scan_of_written_quote hts
    exact hw ps rest ts hscan hrest
  | @byte b bs ps hquote hbackslash _ _ ih =>
    refine ih (p := p ++ [b]) ?_ (by simpa using hwritten)
    exact List.forall_mem_append.2 ⟨hp, List.forall_mem_singleton.2 ⟨hquote, hbackslash⟩⟩
  | letter =>
    obtain ⟨ts, hts⟩ := hwritten.exists_of_plain_append (.inr rfl) hp
    exact not_written_backslash _ _ hts
  | hex =>
    obtain ⟨ts, hts⟩ := hwritten.exists_of_plain_append (.inr rfl) hp
    exact not_written_backslash _ _ hts

theorem exists_scan_of_scan_append {p bs rest : Bytes} {ps : List Piece}
    (hp : ∀ b ∈ p, b ≠ 0x22 ∧ b ≠ 0x5C ∧ ¬b < 0x20) (h : scan (p ++ bs) = some (ps, rest)) :
    ∃ ps', scan bs = some (ps', rest) := by
  rw [scan_bytes hp] at h
  obtain ⟨⟨ps', rest'⟩, hscan, heq⟩ := Option.map_eq_some_iff.1 h
  cases heq
  exact ⟨ps', hscan⟩

/-- Where a document of tokens is read from inside a string, what follows the string is not made
    of tokens. -/
theorem Written.not_written_of_scan {w : Bytes} {ts : List Token} (h : Written w ts)
    (ps : List Piece) (rest : Bytes) (ts' : List Token) (hscan : scan w = some (ps, rest)) :
    ¬Written rest ts' := by
  induction h generalizing ps rest ts' with
  | nil => cases hscan
  | @blank b bs ts hspace _ ih =>
    have hne : b ≠ 0x22 ∧ b ≠ 0x5C := by
      constructor
      · rintro rfl
        cases hspace
      · rintro rfl
        cases hspace
    by_cases hcontrol : b < 0x20
    · rw [scan.eq_def] at hscan
      simp only [if_neg hne.1, if_neg hne.2, if_pos hcontrol] at hscan
      cases hscan
    · obtain ⟨ps', hscan⟩ := exists_scan_of_scan_append (p := [b])
        (List.forall_mem_singleton.2 ⟨hne.1, hne.2, hcontrol⟩) hscan
      exact ih ps' rest ts' hscan
  | @token l bs t ts hl _ ih =>
    obtain hplain | ⟨body, ps', rfl, hbody⟩ := hl.plain
    · obtain ⟨ps', hscan⟩ := exists_scan_of_scan_append hplain hscan
      exact ih ps' rest ts' hscan
    · -- The quote that opens the string closes the one before it.
      have hrest : body ++ 0x22 :: bs = rest := by
        rw [List.cons_append, List.append_assoc, scan.eq_def] at hscan
        cases hscan
        rfl
      subst hrest
      exact hbody.not_written ih (p := []) (List.forall_mem_nil _) ts'

/-! ## Two halves -/

/-- Whether a byte may open a document: a blank or the bracket of an object. -/
def isOpening (b : UInt8) : Bool := isSpace b || b == 0x7B

theorem of_isOpening {b : UInt8} (h : isOpening b = true) :
    b ≠ 0x22 ∧ b ≠ 0x75 ∧ letterEscape? b = none ∧ Text.hexDigit? (Char.ofNat b.toNat) = none ∧
      isInner b = false := by
  have hall : ∀ b, isOpening b = true → b ≠ 0x22 ∧ b ≠ 0x75 ∧ letterEscape? b = none ∧
      Text.hexDigit? (Char.ofNat b.toNat) = none ∧ isInner b = false :=
    forall_byte (by decide +kernel)
  exact hall b h

theorem hexDigit?_of_readHex {n m : Nat} {cs : List Char} (h : Text.readHex n cs = some m) :
    ∀ c ∈ cs, Text.hexDigit? c ≠ none := by
  induction cs generalizing n with
  | nil => exact List.forall_mem_nil _
  | cons c cs ih =>
    rw [Text.readHex] at h
    split at h
    · rename_i d hd
      exact List.forall_mem_cons.2 ⟨by rw [hd]; exact Option.some_ne_none d, ih h⟩
    · cases h

/-- No byte of an escape but the backslash opens a document. -/
theorem not_isOpening_of_hexEscape? {a b c d : UInt8} {u : Nat}
    (h : hexEscape? a b c d = some u) : ∀ x ∈ [a, b, c, d], isOpening x = false := by
  intro x hx
  have hdigit := hexDigit?_of_readHex h _ (List.mem_map_of_mem hx)
  exact Bool.eq_false_iff.2 fun hopening => hdigit (of_isOpening hopening).2.2.2.1

/-- A string may be cut before a byte that opens a document: no escape holds such a byte. -/
theorem StringBody.exists_of_append {c : UInt8} (hc : isOpening c = true) {x bs : Bytes}
    {ps : List Piece} (h : StringBody (x ++ c :: bs) ps) : ∃ ps', StringBody (c :: bs) ps' := by
  generalize hz : x ++ c :: bs = z at h
  induction h generalizing x with
  | nil => exact absurd (List.append_eq_nil_iff.1 hz).2 (List.cons_ne_nil _ _)
  | byte hquote hbackslash hcontrol hrest ih =>
    cases x with
    | nil =>
      cases hz
      exact ⟨_, .byte hquote hbackslash hcontrol hrest⟩
    | cons b x => exact ih (List.cons.inj hz).2
  | letter hletter hrest ih =>
    match x with
    | [] =>
      cases hz
      exact ⟨_, .letter hletter hrest⟩
    | [b] =>
      obtain ⟨rfl, -⟩ := List.cons.inj (List.cons.inj hz).2
      rw [(of_isOpening hc).2.2.1] at hletter
      cases hletter
    | b :: e :: x => exact ih (List.cons.inj (List.cons.inj hz).2).2
  | hex hhex hrest ih =>
    have hdigits := not_isOpening_of_hexEscape? hhex
    match x with
    | [] =>
      cases hz
      exact ⟨_, .hex hhex hrest⟩
    | [_] =>
      cases hz
      cases hc
    | [_, _] | [_, _, _] | [_, _, _, _] | [_, _, _, _, _] =>
      cases hz
      simp [hc] at hdigits
    | _ :: _ :: _ :: _ :: _ :: _ :: x =>
      simp only [List.cons_append, List.cons.injEq] at hz
      exact ih hz.2.2.2.2.2.2

/-- What follows such a cut is read up to the closing quote. -/
theorem StringBody.scan_of_append {c : UInt8} (hc : isOpening c = true) {body x bs : Bytes}
    {ps : List Piece} (h : StringBody body ps) (hcut : x ++ c :: bs = body ++ [0x22])
    (rest : Bytes) : ∃ ps', scan (c :: (bs ++ rest)) = some (ps', rest) := by
  rcases List.eq_nil_or_concat bs with rfl | ⟨bs, a, rfl⟩
  · obtain ⟨-, hlast⟩ := List.append_inj' hcut rfl
    exact absurd (List.cons.inj hlast).1 (of_isOpening hc).1
  · rw [List.concat_eq_append, ← List.cons_append, ← List.append_assoc] at hcut
    obtain ⟨hbody, hlast⟩ := List.append_inj' hcut rfl
    obtain ⟨rfl, -⟩ := List.cons.inj hlast
    obtain ⟨ps', hps⟩ := StringBody.exists_of_append hc (hbody ▸ h)
    have hscan := hps.scan_append rest
    rw [List.concat_eq_append, List.append_assoc]
    exact ⟨ps', hscan⟩

/-- The tokens of a document that is cut before a second document are those of the first part and
    those of the second. -/
theorem Written.exists_of_append {c : UInt8} (hc : isOpening c = true) {x bs : Bytes}
    {ts ds : List Token} (h : Written (x ++ c :: bs) ts) (hd : Written (c :: bs) ds) :
    ∃ xs ts', Written x xs ∧ Written (c :: bs) ts' ∧ ts = xs ++ ts' := by
  generalize hz : x ++ c :: bs = z at h
  induction h generalizing x with
  | nil => exact absurd (List.append_eq_nil_iff.1 hz).2 (List.cons_ne_nil _ _)
  | @blank b z ts hspace hrest ih =>
    cases x with
    | nil =>
      rw [List.nil_append] at hz
      exact ⟨[], ts, .nil, hz ▸ .blank hspace hrest, rfl⟩
    | cons b' x =>
      obtain ⟨rfl, htail⟩ := List.cons.inj hz
      obtain ⟨xs, ts', hxs, hts', rfl⟩ := ih htail
      exact ⟨xs, ts', .blank hspace hxs, hts', rfl⟩
  | @token l z t ts hl hrest ih =>
    rcases List.append_eq_append_iff.1 hz with ⟨as, rfl, has⟩ | ⟨q, rfl, rfl⟩
    · cases x with
      | nil =>
        rw [has]
        exact ⟨[], t :: ts, .nil, .token hl hrest, rfl⟩
      | cons b x =>
        cases as with
        | nil =>
          rw [List.append_nil] at hl
          rw [List.nil_append] at has
          refine ⟨[t], ts, ?_, has ▸ hrest, rfl⟩
          simpa using Written.token hl .nil
        | cons a as =>
          -- The token goes on over the cut, and only a string could.
          obtain ⟨rfl, rfl⟩ := List.cons.inj has
          obtain ⟨b', t', hmark, -⟩ | hinner | ⟨body, ps, hstring, hbody⟩ := hl.bytes
          · simp at hmark
          · have := hinner c (by simp)
            rw [(of_isOpening hc).2.2.2.2] at this
            cases this
          · obtain ⟨ps', hscan⟩ := hbody.scan_of_append hc (List.cons.inj hstring).2 z
            exact absurd hrest (hd.not_written_of_scan ps' z ts hscan)
    · obtain ⟨xs, ts', hxs, hts', rfl⟩ := ih rfl
      exact ⟨t :: xs, ts', .token hl hxs, hts', rfl⟩

end AgreedOrder.Json
