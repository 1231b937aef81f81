/-
  AgreedOrder.Proofs.Json.Record

  Decoding a record gives what was encoded, for every type whose fields have
  different names and can be read back one by one.

    * `parse?_objectChars` — an object of scalars as a value.
    * `Record.decode?_encode` — the round trip.
-/

import AgreedOrder.Json.Record
import AgreedOrder.Proofs.Json.Lexeme
import AgreedOrder.Proofs.Json.Value
import Mathlib.Data.List.Nodup

namespace AgreedOrder.Json

open Bytes

/-! ## Tokens of an object -/

/-- The token of a scalar. -/
def Scalar.token : Scalar → Token
  | .text s => .string (some s)
  | .whole n => .number (some n)

/-- The value of a scalar. -/
def Scalar.value : Scalar → Value
  | .text s => .string (some s)
  | .whole n => .number (some n)

/-- The tokens of a named scalar. -/
def memberTokens (m : String × Scalar) : List Token := [.string (some m.1), .colon, m.2.token]

/-- A named scalar as a member of an object. -/
def memberValue (m : String × Scalar) : Option String × Value := (some m.1, m.2.value)

theorem endsNumber_comma (rest : Bytes) : EndsNumber (0x2C :: rest) := by
  intro b hb
  cases hb
  decide

theorem endsNumber_close (rest : Bytes) : EndsNumber (0x7D :: rest) := by
  intro b hb
  cases hb
  decide

theorem tokens?_scalar (x : Scalar) {rest : Bytes} (h : EndsNumber rest) :
    tokens? (ofChars x.chars ++ rest) = (tokens? rest).map (x.token :: ·) := by
  cases x with
  | text s => exact tokens?_quoteChars s rest
  | whole n => exact (lexeme_whole n).tokens?_append fun _ _ => h

theorem tokens?_member (m : String × Scalar) {rest : Bytes} (h : EndsNumber rest) :
    tokens? (ofChars (memberChars m) ++ rest) = (tokens? rest).map (memberTokens m ++ ·) := by
  unfold memberChars
  rw [ofChars_append, List.append_assoc, ofChars_cons_of_lt (by decide), tokens?_quoteChars,
    List.cons_append, tokens?_mark (by decide) (t := .colon) (by decide), tokens?_scalar _ h]
  simp only [Option.map_map]
  rfl

/-- The members of an object that is not empty, up to its closing bracket. -/
theorem tokens?_members (m : String × Scalar) (ms : List (String × Scalar)) (rest : Bytes) :
    tokens? (ofChars (List.intercalate [','] ((m :: ms).map memberChars)) ++ 0x7D :: rest)
      = (tokens? rest).map
        (List.intercalate [.comma] ((m :: ms).map memberTokens) ++ .closeObject :: ·) := by
  induction ms generalizing m with
  | nil =>
    rw [List.map_singleton, List.map_singleton]
    show tokens? (ofChars (memberChars m ++ []) ++ _) = _
    rw [List.append_nil, tokens?_member m (endsNumber_close rest),
      tokens?_mark (by decide) (t := .closeObject) (by decide), Option.map_map]
    rfl
  | cons n ms ih =>
    have hn := ih n
    simp only [List.map_cons, List.intercalate_cons_cons] at hn ⊢
    have hcomma : ofChars [','] = [0x2C] := rfl
    rw [ofChars_append, ofChars_append, hcomma, List.append_assoc, List.append_assoc,
      List.singleton_append, tokens?_member m (endsNumber_comma _),
      tokens?_mark (by decide) (t := .comma) (by decide), hn]
    simp only [Option.map_map, List.append_assoc]
    rfl

theorem tokens?_objectChars (members : List (String × Scalar)) :
    tokens? (ofChars (objectChars members))
      = some (.openObject :: (List.intercalate [.comma] (members.map memberTokens)
        ++ [.closeObject])) := by
  have hclose : ofChars ['}'] = [0x7D] := rfl
  unfold objectChars
  rw [ofChars_cons_of_lt (by decide), ofChars_append, hclose,
    tokens?_mark (by decide) (t := .openObject) (by decide)]
  cases members with
  | nil =>
    show (tokens? [0x7D]).map _ = _
    rw [tokens?_mark (by decide) (t := .closeObject) (by decide), tokens?]
    rfl
  | cons m ms =>
    rw [tokens?_members, tokens?]
    rfl

/-! ## The value of an object -/

theorem memberTokens_memberValue (m : String × Scalar) :
    Value.memberTokens (memberValue m) = memberTokens m := by
  obtain ⟨name, x⟩ := m
  cases x with
  | text | whole => exact rfl

theorem tokens_objectValue (members : List (String × Scalar)) :
    (Value.object (members.map memberValue)).tokens
      = .openObject :: (List.intercalate [.comma] (members.map memberTokens)
        ++ [.closeObject]) := by
  rw [Value.tokens, Value.membersTokens_eq, List.map_map]
  simp only [Function.comp_def, memberTokens_memberValue]

/-- An object of named scalars is read as the object of their values. -/
theorem parse?_objectChars (members : List (String × Scalar)) :
    Value.parse? (ofChars (objectChars members)) = some (.object (members.map memberValue)) := by
  unfold Value.parse?
  rw [tokens?_objectChars, Option.bind_some, Value.ofTokens?_eq_some_iff, tokens_objectValue]

/-! ## The fields of a record -/

theorem membersNamed_of_mem {members : List (String × Scalar)}
    (hnodup : (members.map (·.1)).Nodup) {m : String × Scalar} (hm : m ∈ members) :
    membersNamed m.1 (members.map memberValue) = [m.2.value] := by
  have hnone : ∀ ms : List (String × Scalar), m.1 ∉ ms.map (·.1) →
      membersNamed m.1 (ms.map memberValue) = [] := by
    intro ms hms
    unfold membersNamed
    rw [List.map_eq_nil_iff, List.filter_eq_nil_iff]
    intro x hx
    obtain ⟨y, hy, rfl⟩ := List.mem_map.1 hx
    rw [beq_iff_eq]
    intro heq
    exact hms (List.mem_map.2 ⟨y, hy, Option.some.inj heq⟩)
  induction members with
  | nil => cases hm
  | cons x ms ih =>
    rw [List.map_cons, List.nodup_cons] at hnodup
    by_cases hx : x.1 = m.1
    · have hnot : m.1 ∉ ms.map (·.1) := by
        rw [← hx]
        exact hnodup.1
      rcases List.mem_cons.1 hm with rfl | hm
      · have hrest := hnone ms hnot
        unfold membersNamed at hrest ⊢
        rw [List.map_cons, List.filter_cons_of_pos (by simp [memberValue]), List.map_cons, hrest]
        rfl
      · exact absurd (List.mem_map_of_mem hm) hnot
    · have hrest := ih hnodup.2 ((List.mem_cons.1 hm).resolve_left fun heq => hx (by rw [heq]))
      unfold membersNamed at hrest ⊢
      rw [List.map_cons, List.filter_cons_of_neg (by simp [memberValue, hx]), hrest]

theorem mapM_field? {members ms : List (String × Scalar)} (hnodup : (members.map (·.1)).Nodup)
    (hsub : ∀ m ∈ ms, m ∈ members) :
    (ms.map (·.1)).mapM (field? (members.map memberValue))
      = some (ms.map fun m => some m.2.value) := by
  induction ms with
  | nil => rfl
  | cons m ms ih =>
    have hfield : field? (members.map memberValue) m.1 = some (some m.2.value) := by
      unfold field?
      rw [membersNamed_of_mem hnodup (hsub m (List.mem_cons_self ..))]
    rw [List.map_cons, List.mapM_cons, hfield, ih fun x hx => hsub x (List.mem_cons_of_mem _ hx)]
    rfl

/-- Records whose fields have different names, and are read back as they were written. -/
class LawfulRecord (α : Type) [Record α] : Prop where
  nodup_names : (Record.names α).Nodup
  length_write : ∀ a : α, (Record.write a).length = (Record.names α).length
  read_write : ∀ a : α, Record.read ((Record.write a).map fun x => some x.value) = some a

/-- Records differ where what is written for them does. -/
theorem Record.write_injective {α : Type} [Record α] [LawfulRecord α] {a b : α}
    (h : Record.write a = Record.write b) : a = b := by
  have ha := LawfulRecord.read_write a
  rw [h, LawfulRecord.read_write] at ha
  exact (Option.some.inj ha).symm

/-- An encoded record is an object of its fields. -/
theorem Record.parse?_encode {α : Type} [Record α] (a : α) : Value.parse? (Record.encode a)
    = some (.object (((Record.names α).zip (Record.write a)).map memberValue)) := by
  unfold encode encodeText
  rw [ofText_ofList, parse?_objectChars]

/-- Whatever record an encoded record is decoded as, its fields are those of that object. -/
theorem Record.decode?_encode_eq {α β : Type} [Record α] [Record β] (a : α) :
    (Record.decode? (Record.encode a) : Option β)
      = Record.ofValue? (.object (((Record.names α).zip (Record.write a)).map memberValue)) := by
  unfold decode?
  rw [Record.parse?_encode, Option.bind_some]

/-- Decoding an encoded record gives the record. -/
@[simp] theorem Record.decode?_encode {α : Type} [Record α] [LawfulRecord α] (a : α) :
    (Record.decode? (Record.encode a) : Option α) = some a := by
  have hlength := LawfulRecord.length_write a
  have hnames : ((Record.names α).zip (Record.write a)).map (·.1) = Record.names α :=
    List.map_fst_zip (Nat.le_of_eq hlength.symm)
  have hvalues : ((Record.names α).zip (Record.write a)).map (·.2) = Record.write a :=
    List.map_snd_zip (Nat.le_of_eq hlength)
  have hnodup : (((Record.names α).zip (Record.write a)).map (·.1)).Nodup := by
    rw [hnames]
    exact LawfulRecord.nodup_names
  have hfields := mapM_field? hnodup fun m hm => hm
  rw [hnames] at hfields
  rw [Record.decode?_encode_eq]
  unfold ofValue? fieldsOf?
  dsimp only
  rw [if_pos ?_, hfields, Option.bind_some, ← LawfulRecord.read_write a, ← hvalues, List.map_map,
    hvalues]
  · rfl
  · rw [List.all_map, List.all_eq_true]
    exact fun m _ => rfl

end AgreedOrder.Json
