/-
  AgreedOrder.Proofs.Json.Value

  The reader of tokens. A value has one list of tokens, and a list of tokens is
  read as a value just where it is the tokens of that value. The reader's state
  knows the tokens that were read, so that whatever value it ends with is the
  value they are the tokens of; and it takes the tokens of every value.

    * `Value.tokens` — the tokens of a value.
    * `ReadState.tokens_of_step`, `Value.taken` — one step, and one value.
    * `Value.ofTokens?_eq_some_iff` — the reader.
-/

import AgreedOrder.Json.Value

namespace AgreedOrder.Json

/-! ## The tokens of a value -/

namespace Value

mutual

/-- The tokens of a value. -/
def tokens : Value → List Token
  | .null => [.null]
  | .bool b => [.bool b]
  | .number v => [.number v]
  | .string s => [.string s]
  | .array items => .openArray :: (List.intercalate [.comma] (itemsTokens items) ++ [.closeArray])
  | .object members =>
    .openObject :: (List.intercalate [.comma] (membersTokens members) ++ [.closeObject])

/-- The tokens of each item of an array. -/
def itemsTokens : List Value → List (List Token)
  | [] => []
  | v :: items => tokens v :: itemsTokens items

/-- The tokens of each member of an object. -/
def membersTokens : List (Option String × Value) → List (List Token)
  | [] => []
  | m :: members => memberTokens m :: membersTokens members

/-- The tokens of a member of an object. -/
def memberTokens : Option String × Value → List Token
  | (name, v) => .string name :: .colon :: tokens v

end

theorem itemsTokens_eq (items : List Value) : itemsTokens items = items.map tokens := by
  induction items with
  | nil => rfl
  | cons v items ih => rw [itemsTokens, ih, List.map_cons]

theorem membersTokens_eq (members : List (Option String × Value)) :
    membersTokens members = members.map memberTokens := by
  induction members with
  | nil => rfl
  | cons m members ih => rw [membersTokens, ih, List.map_cons]

/-- What holds of a value if it holds of its parts holds of every value. -/
@[elab_as_elim]
theorem induction {P : Value → Prop} (null : P .null) (bool : ∀ b, P (.bool b))
    (number : ∀ v, P (.number v)) (string : ∀ s, P (.string s))
    (array : ∀ items, (∀ v ∈ items, P v) → P (.array items))
    (object : ∀ members, (∀ m ∈ members, P m.2) → P (.object members)) (v : Value) : P v :=
  @Value.rec P (fun items => ∀ v ∈ items, P v) (fun members => ∀ m ∈ members, P m.2)
    (fun m => P m.2) null bool number string array object (List.forall_mem_nil _)
    (fun _ _ hv hitems => List.forall_mem_cons.2 ⟨hv, hitems⟩) (List.forall_mem_nil _)
    (fun _ _ hm hmembers => List.forall_mem_cons.2 ⟨hm, hmembers⟩) (fun _ _ hv => hv) v

end Value

/-! ## The tokens that were read -/

/-- The tokens of an open bracket with what it holds so far. -/
def OpenBracket.tokens : OpenBracket → List Token
  | .array items => .openArray :: items.reverse.flatMap fun v => v.tokens ++ [.comma]
  | .object members name =>
    .openObject :: (members.reverse.flatMap (fun m => Value.memberTokens m ++ [.comma])
      ++ [.string name, .colon])

/-- The tokens of the brackets that are open, the outermost first. -/
def stackTokens (stack : List OpenBracket) : List Token := stack.reverse.flatMap OpenBracket.tokens

/-- The tokens that lead to a state. -/
def ReadState.tokens : ReadState → List Token
  | .value stack => stackTokens stack
  | .arrayStart outer => stackTokens outer ++ [.openArray]
  | .objectStart outer => stackTokens outer ++ [.openObject]
  | .name members outer =>
    stackTokens outer
      ++ .openObject :: members.reverse.flatMap fun m => Value.memberTokens m ++ [.comma]
  | .colon members n outer =>
    stackTokens outer
      ++ .openObject :: (members.reverse.flatMap (fun m => Value.memberTokens m ++ [.comma])
        ++ [.string n])
  | .after v stack => stackTokens stack ++ v.tokens

theorem stackTokens_cons (b : OpenBracket) (outer : List OpenBracket) :
    stackTokens (b :: outer) = stackTokens outer ++ b.tokens := by
  unfold stackTokens
  rw [List.reverse_cons, List.flatMap_append, List.flatMap_singleton]

/-- All items but the last have a comma behind them. -/
theorem intercalate_concat {α : Type} (sep : List α) (xs : List (List α)) (x : List α) :
    List.intercalate sep (xs ++ [x]) = xs.flatMap (fun y => y ++ sep) ++ x := by
  induction xs with
  | nil => simp
  | cons y xs ih =>
    cases xs with
    | nil => simp
    | cons z xs =>
      rw [List.cons_append, List.cons_append, List.intercalate_cons_cons, ← List.cons_append, ih]
      simp only [List.flatMap_cons, List.append_assoc]

theorem exists_intercalate_cons {α : Type} (sep x : List α) (xs : List (List α)) :
    ∃ ys, List.intercalate sep (x :: xs) = x ++ ys := by
  cases xs with
  | nil => exact ⟨[], by rw [List.intercalate_singleton, List.append_nil]⟩
  | cons y xs => exact ⟨_, by rw [List.intercalate_cons_cons, List.append_assoc]⟩

theorem tokens_array_concat (items : List Value) (v : Value) :
    (Value.array (items ++ [v])).tokens
      = .openArray :: (items.flatMap (fun v => v.tokens ++ [.comma]) ++ v.tokens
        ++ [.closeArray]) := by
  rw [Value.tokens, Value.itemsTokens_eq, List.map_append, List.map_singleton, intercalate_concat,
    List.flatMap_map]

theorem tokens_object_concat (members : List (Option String × Value)) (m : Option String × Value) :
    (Value.object (members ++ [m])).tokens
      = .openObject :: (members.flatMap (fun m => Value.memberTokens m ++ [.comma])
        ++ Value.memberTokens m ++ [.closeObject]) := by
  rw [Value.tokens, Value.membersTokens_eq, List.map_append, List.map_singleton,
    intercalate_concat, List.flatMap_map]

theorem tokens_of_beginValue {stack : List OpenBracket} {t : Token} {s : ReadState}
    (h : beginValue stack t = some s) : s.tokens = stackTokens stack ++ [t] := by
  unfold beginValue at h
  split at h
  all_goals cases h
  all_goals simp only [ReadState.tokens, Value.tokens]

/-- Reading a token adds it to those that were read. -/
theorem ReadState.tokens_of_step {s s' : ReadState} {t : Token} (h : s.step t = some s') :
    s'.tokens = s.tokens ++ [t] := by
  have harrayStart : ∀ outer, (ReadState.value (.array [] :: outer)).tokens
      = (ReadState.arrayStart outer).tokens := fun outer => stackTokens_cons _ outer
  revert h
  fun_cases ReadState.step s t with
  | case1 stack => exact fun h => tokens_of_beginValue h
  | case3 outer => exact fun h => (tokens_of_beginValue h).trans (by rw [← harrayStart]; rfl)
  | case2 outer =>
    rintro ⟨⟩
    simp [ReadState.tokens, Value.tokens, Value.itemsTokens]
  | case4 outer =>
    rintro ⟨⟩
    simp [ReadState.tokens, Value.tokens, Value.membersTokens]
  | case5 outer n =>
    rintro ⟨⟩
    simp [ReadState.tokens]
  | case6 members n outer =>
    rintro ⟨⟩
    simp [ReadState.tokens]
  | case7 members n outer =>
    rintro ⟨⟩
    simp [ReadState.tokens, stackTokens_cons, OpenBracket.tokens]
  | case8 v items outer =>
    rintro ⟨⟩
    simp [ReadState.tokens, stackTokens_cons, OpenBracket.tokens]
  | case9 v items outer =>
    rintro ⟨⟩
    simp [ReadState.tokens, stackTokens_cons, OpenBracket.tokens, tokens_array_concat]
  | case10 v members n outer =>
    rintro ⟨⟩
    simp [ReadState.tokens, stackTokens_cons, OpenBracket.tokens, Value.memberTokens]
  | case11 v members n outer =>
    rintro ⟨⟩
    simp [ReadState.tokens, stackTokens_cons, OpenBracket.tokens, tokens_object_concat,
      Value.memberTokens]
  | case12 => exact fun h => nomatch h

theorem ReadState.tokens_of_foldlM {s s' : ReadState} {ts : List Token}
    (h : ts.foldlM step s = some s') : s'.tokens = s.tokens ++ ts := by
  induction ts generalizing s with
  | nil =>
    cases h
    exact (List.append_nil _).symm
  | cons t ts ih =>
    rw [List.foldlM_cons] at h
    obtain ⟨s₁, hstep, hrun⟩ := Option.bind_eq_some_iff.1 h
    rw [ih hrun, tokens_of_step hstep, List.append_assoc, List.singleton_append]

/-! ## The tokens that are taken -/

/-- Whatever may start an array may start its first item. -/
theorem step_arrayStart {outer : List OpenBracket} {t : Token} (h : t ≠ .closeArray) :
    ReadState.step (.arrayStart outer) t = ReadState.step (.value (.array [] :: outer)) t := by
  cases t with
  | closeArray => exact absurd rfl h
  | _ => rfl

/-- The first token of a value closes nothing. -/
theorem exists_tokens_eq_cons (v : Value) : ∃ t ts, v.tokens = t :: ts ∧ t ≠ .closeArray := by
  cases v with
  | _ => exact ⟨_, _, by rw [Value.tokens], by simp⟩

theorem foldlM_arrayStart (v : Value) (ts : List Token) (outer : List OpenBracket) :
    (v.tokens ++ ts).foldlM ReadState.step (.arrayStart outer)
      = (v.tokens ++ ts).foldlM ReadState.step (.value (.array [] :: outer)) := by
  obtain ⟨t, ts', htokens, ht⟩ := exists_tokens_eq_cons v
  rw [htokens, List.cons_append, List.foldlM_cons, List.foldlM_cons, step_arrayStart ht]

/-- The tokens of a value are read as that value. -/
def Value.Taken (v : Value) : Prop :=
  ∀ stack, v.tokens.foldlM ReadState.step (.value stack) = some (.after v stack)

/-- Items are read one after the other up to the end of their array. -/
theorem foldlM_items {v : Value} {items : List Value} (h : ∀ w ∈ v :: items, Value.Taken w)
    (acc : List Value) (outer : List OpenBracket) :
    (List.intercalate [Token.comma] ((v :: items).map Value.tokens)
        ++ [Token.closeArray]).foldlM ReadState.step (.value (.array acc :: outer))
      = some (.after (.array (acc.reverse ++ v :: items)) outer) := by
  induction items generalizing v acc with
  | nil =>
    rw [List.map_singleton, List.intercalate_singleton, List.foldlM_append,
      h v (List.mem_singleton_self v)]
    show some (ReadState.after (.array (v :: acc).reverse) outer) = _
    rw [List.reverse_cons]
  | cons w items ih =>
    obtain ⟨hv, hitems⟩ := List.forall_mem_cons.1 h
    rw [List.map_cons, List.map_cons, List.intercalate_cons_cons, List.append_assoc,
      List.append_assoc, List.foldlM_append, hv]
    -- The comma joins the item to those before it.
    show (List.intercalate [Token.comma] ((w :: items).map Value.tokens)
      ++ [Token.closeArray]).foldlM ReadState.step (.value (.array (v :: acc) :: outer)) = _
    rw [ih hitems, List.reverse_cons, List.append_assoc, List.singleton_append]

/-- A member is read up to its value. -/
theorem foldlM_member {m : Option String × Value} (h : Value.Taken m.2) (ts : List Token)
    (acc : List (Option String × Value)) (outer : List OpenBracket) :
    (Value.memberTokens m ++ ts).foldlM ReadState.step (.name acc outer)
      = ts.foldlM ReadState.step (.after m.2 (.object acc m.1 :: outer)) := by
  rw [Value.memberTokens]
  show (m.2.tokens ++ ts).foldlM ReadState.step (.value (.object acc m.1 :: outer)) = _
  rw [List.foldlM_append, h]
  rfl

/-- Members are read one after the other up to the end of their object. -/
theorem foldlM_members {m : Option String × Value} {members : List (Option String × Value)}
    (h : ∀ m' ∈ m :: members, Value.Taken m'.2) (acc : List (Option String × Value))
    (outer : List OpenBracket) :
    (List.intercalate [Token.comma] ((m :: members).map Value.memberTokens)
        ++ [Token.closeObject]).foldlM ReadState.step (.name acc outer)
      = some (.after (.object (acc.reverse ++ m :: members)) outer) := by
  induction members generalizing m acc with
  | nil =>
    rw [List.map_singleton, List.intercalate_singleton,
      foldlM_member (h m (List.mem_singleton_self m))]
    show some (ReadState.after (.object (m :: acc).reverse) outer) = _
    rw [List.reverse_cons]
  | cons n members ih =>
    obtain ⟨hm, hmembers⟩ := List.forall_mem_cons.1 h
    rw [List.map_cons, List.map_cons, List.intercalate_cons_cons, List.append_assoc,
      List.append_assoc, foldlM_member hm]
    -- The comma joins the member to those before it.
    show (List.intercalate [Token.comma] ((n :: members).map Value.memberTokens)
      ++ [Token.closeObject]).foldlM ReadState.step (.name (m :: acc) outer) = _
    rw [ih hmembers, List.reverse_cons, List.append_assoc, List.singleton_append]

/-- The tokens of every value are read as that value. -/
theorem Value.taken (v : Value) : Value.Taken v := by
  induction v using Value.induction with
  | null | bool | number | string => exact fun _ => rfl
  | array items ih =>
    intro stack
    rw [Value.tokens, Value.itemsTokens_eq]
    cases items with
    | nil => rfl
    | cons v items =>
      obtain ⟨ts, hts⟩ := exists_intercalate_cons [Token.comma] v.tokens (items.map Value.tokens)
      show (List.intercalate [Token.comma] ((v :: items).map Value.tokens)
        ++ [Token.closeArray]).foldlM ReadState.step (.arrayStart stack) = _
      have hread := foldlM_items ih [] stack
      rw [List.map_cons, hts, List.append_assoc] at hread ⊢
      rw [foldlM_arrayStart, hread]
      rfl
  | object members ih =>
    intro stack
    rw [Value.tokens, Value.membersTokens_eq]
    cases members with
    | nil => rfl
    | cons m members =>
      obtain ⟨ts, hts⟩ := exists_intercalate_cons [Token.comma] (Value.memberTokens m)
        (members.map Value.memberTokens)
      -- The first name is read alike behind the bracket and behind a comma.
      have hread := foldlM_members ih [] stack
      rw [List.map_cons, hts, Value.memberTokens] at hread ⊢
      exact hread

/-- Tokens are read as a value just where they are its tokens. -/
theorem Value.ofTokens?_eq_some_iff {ts : List Token} {v : Value} :
    Value.ofTokens? ts = some v ↔ ts = v.tokens := by
  constructor
  · intro h
    obtain ⟨s, hrun, hfinished⟩ := Option.bind_eq_some_iff.1 h
    have htokens := ReadState.tokens_of_foldlM hrun
    unfold ReadState.finished? at hfinished
    split at hfinished
    · cases hfinished
      exact htokens.symm
    · cases hfinished
  · rintro rfl
    unfold Value.ofTokens?
    rw [taken v]
    rfl

/-! ## What the reader takes next -/

/-- A number is a whole value. -/
theorem exists_after_of_step_number {s s' : ReadState} {v : Option Int}
    (h : s.step (.number v) = some s') : ∃ stack, s' = .after (.number v) stack := by
  match s, h with
  | .value stack, h => exact ⟨stack, (Option.some.inj h).symm⟩
  | .arrayStart outer, h => exact ⟨.array [] :: outer, (Option.some.inj h).symm⟩
  | .after _ [], h | .after _ (.array _ :: _), h | .after _ (.object _ _ :: _), h => cases h

/-- What follows a value is a comma or a closing bracket. -/
theorem closes_of_step {v : Value} {stack : List OpenBracket} {t : Token} {s : ReadState}
    (h : ReadState.step (.after v stack) t = some s) :
    t = .comma ∨ t = .closeArray ∨ t = .closeObject := by
  cases t with
  | comma => exact .inl rfl
  | closeArray => exact .inr (.inl rfl)
  | closeObject => exact .inr (.inr rfl)
  | _ =>
    match stack, h with
    | [], h => cases h
    | .array _ :: _, h => cases h
    | .object _ _ :: _, h => cases h

/-- Behind a whole value nothing more is read. -/
theorem step_after_nil (v : Value) (t : Token) : ReadState.step (.after v []) t = none := by
  cases t with
  | _ => rfl

/-- An object is read to the end of a document only where nothing was read before it. -/
theorem eq_value_nil_of_foldlM {members : List (Option String × Value)} {v : Value} {s : ReadState}
    (h : (Value.object members).tokens.foldlM ReadState.step s = some (.after v [])) :
    s = .value [] := by
  have hafter : ∀ stack, (Value.object members).tokens.foldlM ReadState.step (.value stack)
      = some (.after v []) → stack = [] := by
    intro stack hrun
    rw [Value.taken] at hrun
    cases hrun
    rfl
  match s with
  | .value stack => rw [hafter stack h]
  | .arrayStart outer =>
    have hitem := foldlM_arrayStart (.object members) [] outer
    rw [List.append_nil, h] at hitem
    cases hafter _ hitem.symm
  | .objectStart _ | .name _ _ | .colon _ _ _ | .after _ [] | .after _ (.array _ :: _)
  | .after _ (.object _ _ :: _) =>
    rw [Value.tokens] at h
    cases h

end AgreedOrder.Json
