/-
  AgreedOrder.Proofs.Json.Fields

  Records that are read from objects depend on their own fields only. Each
  field says which members there may be under its name, and what it is read as.
  A record whose type reads its fields one by one is decoded from an object
  just where every field is read, wherever its member stands and whatever other
  members there are.

    * `FieldKind.Holds` — the members of a field.
    * `ReadsFields` — decoding by fields.
    * `Layout.readsFields` — records of fields are decoded so.
-/

import AgreedOrder.Proofs.Base64
import AgreedOrder.Proofs.Json.Document
import AgreedOrder.Proofs.Json.Record
import AgreedOrder.Proofs.MessageId
import Mathlib.Data.List.Forall2

namespace AgreedOrder.Json

/-! ## Fields -/

/-- The kinds of the fields of records. -/
inductive FieldKind
  | text
  | id
  | number
  | body

/-- The values of the members that may stand under a field's name, and what the field is read as
    from them: the scalar that is written for it. Only a body may be missing. -/
inductive FieldKind.Holds : FieldKind → List Value → Scalar → Prop
  | text (s : String) : Holds .text [.string (some s)] (.text s)
  | id {s : String} {i : MessageId} (h : MessageId.ofText? s = some i) :
      Holds .id [.string (some s)] (.text i.toText)
  | number (n : UInt64) : Holds .number [.number (some n.toNat)] (.whole n.toNat)
  | missing : Holds .body [] (.text (Base64.encode []))
  | null : Holds .body [.null] (.text (Base64.encode []))
  | body (b : Bytes) : Holds .body [.string (some (Base64.encode b))] (.text (Base64.encode b))

/-- The values of the members with a name. -/
def valuesNamed (name : String) (members : List (String × Value)) : List Value :=
  (members.filter fun m => m.1 == name).map (·.2)

/-- Members whose names are texts, as members of an object. -/
def named (members : List (String × Value)) : List (Option String × Value) :=
  members.map fun m => (some m.1, m.2)

/-- A document is an object of these members in this order, with whatever blanks between its
    tokens and around it. -/
def IsObject (d : Bytes) (members : List (String × Value)) : Prop :=
  Written d (Value.object (named members)).tokens

/-- The members of an object that are fields. -/
def knownMembers (fields : List (String × FieldKind)) (members : List (String × Value)) :
    List (String × Value) :=
  members.filter fun m => m.1 ∈ fields.map (·.1)

/-! ## Decoding by fields -/

/-- Records of a type are decoded by these fields, from objects. -/
structure ReadsFields (α : Type) [Record α] (fields : List (String × FieldKind)) : Prop where
  /-- A document is decoded just where the members of each field are what it is read from. -/
  decode?_eq_some_iff : ∀ {d : Bytes} {members : List (String × Value)}, IsObject d members →
    ∀ a : α, Record.decode? d = some a ↔
      List.Forall₂ (fun f x => f.2.Holds (valuesNamed f.1 members) x) fields (Record.write a)
  /-- There is such a record where each field is read from its members, and nowhere else. -/
  exists_iff : ∀ {d : Bytes} {members : List (String × Value)}, IsObject d members →
    ((∃ a : α, Record.decode? d = some a) ↔
      ∀ f ∈ fields, ∃ x, f.2.Holds (valuesNamed f.1 members) x)
  /-- Neither the order of the members nor what other members there are makes a difference. -/
  eq_of_perm : ∀ {d d' : Bytes} {members members' : List (String × Value)}, IsObject d members →
    IsObject d' members' → (knownMembers fields members).Perm (knownMembers fields members') →
    (Record.decode? d : Option α) = Record.decode? d'
  /-- Blanks may stand around a document, -/
  eq_of_blanks : ∀ {d : Bytes} {members : List (String × Value)}, IsObject d members →
    ∀ {x y : Bytes}, Blanks x → Blanks y →
      (Record.decode? (x ++ (d ++ y)) : Option α) = Record.decode? d
  /-- and nothing else before it -/
  none_before : ∀ {d : Bytes} {members : List (String × Value)}, IsObject d members →
    ∀ {x y : Bytes}, ¬Blanks x → Blanks y → (Record.decode? (x ++ (d ++ y)) : Option α) = none
  /-- or behind it. -/
  none_after : ∀ {d : Bytes} {members : List (String × Value)}, IsObject d members →
    ∀ {x y : Bytes}, Blanks x → ¬Blanks y → (Record.decode? (x ++ (d ++ y)) : Option α) = none
  /-- An object with a name that is no text is not decoded. -/
  none_of_name : ∀ {d : Bytes} {members : List (Option String × Value)},
    Written d (Value.object members).tokens → none ∈ members.map (·.1) →
    (Record.decode? d : Option α) = none

/-! ## Reading one field -/

@[simp] theorem textField?_text (s : String) :
    textField? (some (Scalar.text s).value) = some s := rfl

@[simp] theorem idField?_text (id : MessageId) :
    idField? (some (Scalar.text id.toText).value) = some id := by
  unfold idField?
  rw [textField?_text, Option.bind_some, MessageId.ofText?_toText]

@[simp] theorem bytesField?_text (b : Bytes) :
    bytesField? (some (Scalar.text (Base64.encode b)).value) = some b := Base64.decode_encode b

@[simp] theorem numberField?_whole (n : UInt64) :
    numberField? (some (Scalar.whole n.toNat).value) = some n := by
  have hlt := n.toNat_lt
  have hrange : (0 : Int) ≤ (n.toNat : Int) ∧ (n.toNat : Int) ≤ 18446744073709551615 := by omega
  have hwhole : wholeField? .u64 (some (Scalar.whole n.toNat).value) = some (n.toNat : Int) :=
    if_pos hrange
  unfold numberField?
  rw [hwhole, Option.map_some, Int.toNat_natCast, UInt64.ofNat_toNat]

/-- The type of the fields of a kind. -/
def FieldKind.Content : FieldKind → Type
  | .text => String
  | .id => MessageId
  | .number => UInt64
  | .body => Bytes

/-- What a field is read as. -/
def FieldKind.read? : (kind : FieldKind) → Option Value → Option kind.Content
  | .text => textField?
  | .id => idField?
  | .number => numberField?
  | .body => bytesField?

/-- What is written for a field. -/
def FieldKind.write : (kind : FieldKind) → kind.Content → Scalar
  | .text => .text
  | .id => fun i => .text i.toText
  | .number => fun n => .whole n.toNat
  | .body => fun b => .text (Base64.encode b)

/-- The scalar of a field. -/
def FieldKind.scalar? (kind : FieldKind) (v : Option Value) : Option Scalar :=
  (kind.read? v).map kind.write

/-- The value of a field among those of its members: missing, or given once. -/
def single? : List Value → Option (Option Value)
  | [] => some none
  | [v] => some (some v)
  | _ => none

theorem single?_eq_some_iff {vs : List Value} {v : Option Value} :
    single? vs = some v ↔ vs = v.toList := by
  match vs, v with
  | [], none | [], some _ | [_], none | [_], some _ => simp [single?]
  | _ :: _ :: _, none | _ :: _ :: _, some _ => simp [single?]

theorem textField?_eq_some_iff {v : Option Value} {s : String} :
    textField? v = some s ↔ v = some (.string (some s)) := by
  constructor
  · intro h
    unfold textField? at h
    split at h
    · rw [h]
    · cases h
  · rintro rfl
    rfl

theorem idField?_eq_some_iff {v : Option Value} {i : MessageId} :
    idField? v = some i ↔ ∃ s, v = some (.string (some s)) ∧ MessageId.ofText? s = some i := by
  unfold idField?
  simp only [Option.bind_eq_some_iff, textField?_eq_some_iff]

theorem numberField?_eq_some_iff {v : Option Value} {n : UInt64} :
    numberField? v = some n ↔ v = some (.number (some n.toNat)) := by
  constructor
  · intro h
    obtain ⟨i, hi, rfl⟩ := Option.map_eq_some_iff.1 h
    unfold wholeField? at hi
    split at hi
    · obtain ⟨⟨hlow, hhigh⟩, hsome⟩ := Option.ite_none_right_eq_some.1 hi
      cases hsome
      have hlow : 0 ≤ i := hlow
      have hhigh : i ≤ 18446744073709551615 := hhigh
      rw [UInt64.toNat_ofNat_of_lt' (by omega : i.toNat < 2 ^ 64), Int.toNat_of_nonneg hlow]
    · cases hi
  · rintro rfl
    exact numberField?_whole n

theorem bytesField?_eq_some_iff {v : Option Value} {b : Bytes} :
    bytesField? v = some b ↔
      b = [] ∧ (v = none ∨ v = some .null) ∨ v = some (.string (some (Base64.encode b))) := by
  constructor
  · intro h
    unfold bytesField? at h
    split at h
    · exact .inl ⟨(Option.some.inj h).symm, .inl rfl⟩
    · exact .inl ⟨(Option.some.inj h).symm, .inr rfl⟩
    · obtain ⟨s, rfl, hs⟩ := Option.bind_eq_some_iff.1 h
      rw [Base64.decode_eq_some_iff.1 hs]
      exact .inr rfl
    · cases h
  · rintro (⟨rfl, rfl | rfl⟩ | rfl)
    · rfl
    · rfl
    · exact bytesField?_text b

/-- A field is read from its members just where they are what it holds. -/
theorem FieldKind.bind_scalar?_eq_some_iff (kind : FieldKind) (vs : List Value) (x : Scalar) :
    (single? vs).bind kind.scalar? = some x ↔ kind.Holds vs x := by
  simp only [Option.bind_eq_some_iff, single?_eq_some_iff]
  constructor
  · rintro ⟨v, rfl, hx⟩
    cases kind with
    | text =>
      obtain ⟨s, hs, rfl⟩ := Option.map_eq_some_iff.1 hx
      rw [textField?_eq_some_iff.1 hs]
      exact .text s
    | id =>
      obtain ⟨i, hi, rfl⟩ := Option.map_eq_some_iff.1 hx
      obtain ⟨s, rfl, hs⟩ := idField?_eq_some_iff.1 hi
      exact .id hs
    | number =>
      obtain ⟨n, hn, rfl⟩ := Option.map_eq_some_iff.1 hx
      rw [numberField?_eq_some_iff.1 hn]
      exact .number n
    | body =>
      obtain ⟨b, hb, rfl⟩ := Option.map_eq_some_iff.1 hx
      obtain ⟨rfl, rfl | rfl⟩ | rfl := bytesField?_eq_some_iff.1 hb
      · exact .missing
      · exact .null
      · exact .body b
  · intro h
    cases h with
    | text s => exact ⟨some (.string (some s)), rfl, rfl⟩
    | @id s i h =>
      have hid := idField?_eq_some_iff.2 ⟨s, rfl, h⟩
      exact ⟨some (.string (some s)), rfl, Option.map_eq_some_iff.2 ⟨i, hid, rfl⟩⟩
    | number n =>
      exact ⟨_, rfl, Option.map_eq_some_iff.2 ⟨n, numberField?_eq_some_iff.2 rfl, rfl⟩⟩
    | missing => exact ⟨none, rfl, rfl⟩
    | null => exact ⟨some .null, rfl, rfl⟩
    | body b =>
      exact ⟨_, rfl, Option.map_eq_some_iff.2 ⟨b, bytesField?_eq_some_iff.2 (.inr rfl), rfl⟩⟩

/-! ## Reading all fields -/

section Mapping

variable {α β γ : Type}

/-- A list is mapped where each of its items is. -/
theorem mapM_eq_some_iff {f : α → Option β} {xs : List α} {ys : List β} :
    xs.mapM f = some ys ↔ List.Forall₂ (fun x y => f x = some y) xs ys := by
  induction xs generalizing ys with
  | nil => simp [eq_comm]
  | cons x xs ih =>
    rw [List.mapM_cons, List.forall₂_cons_left_iff]
    simp only [Option.bind_eq_bind, Option.bind_eq_some_iff, ih, Option.pure_def,
      Option.some.injEq]
    constructor
    · rintro ⟨y, hy, ys, hys, rfl⟩
      exact ⟨y, ys, hy, hys, rfl⟩
    · rintro ⟨y, ys, hy, hys, rfl⟩
      exact ⟨y, hy, ys, hys, rfl⟩

theorem mapM_congr {f g : α → Option β} {xs : List α} (h : ∀ x ∈ xs, f x = g x) :
    xs.mapM f = xs.mapM g := by
  induction xs with
  | nil => rfl
  | cons x xs ih =>
    obtain ⟨hx, hxs⟩ := List.forall_mem_cons.1 h
    rw [List.mapM_cons, List.mapM_cons, hx, ih hxs]

theorem exists_forall₂_iff {R : α → β → Prop} {xs : List α} :
    (∃ ys, List.Forall₂ R xs ys) ↔ ∀ x ∈ xs, ∃ y, R x y := by
  induction xs with
  | nil => simp
  | cons x xs ih =>
    rw [List.forall_mem_cons, ← ih]
    constructor
    · rintro ⟨_, _ | ⟨hy, hys⟩⟩
      exact ⟨⟨_, hy⟩, _, hys⟩
    · rintro ⟨⟨y, hy⟩, ys, hys⟩
      exact ⟨y :: ys, .cons hy hys⟩

/-- Two passes over a list are one. -/
theorem mapM_bind_zip (f : α → Option β) (g : α × β → Option γ) (xs : List α) :
    ((xs.mapM f).bind fun ys => (xs.zip ys).mapM g)
      = xs.mapM fun x => (f x).bind fun y => g (x, y) := by
  induction xs with
  | nil => rfl
  | cons x xs ih =>
    rw [List.mapM_cons, List.mapM_cons, ← ih]
    cases f x with
    | none => rfl
    | some y =>
      cases hys : xs.mapM f with
      | none => simp
      | some ys => simp

end Mapping

/-- Records whose type reads these fields one by one. -/
structure Layout (α : Type) [Record α] (fields : List (String × FieldKind)) : Prop where
  names_eq : Record.names α = fields.map (·.1)
  map_write_read : ∀ vs : List (Option Value), vs.length = fields.length →
    (Record.read vs : Option α).map Record.write = (fields.zip vs).mapM fun p => p.1.2.scalar? p.2

/-- A record of one field. -/
theorem Layout.of_one {α : Type} [Record α] {l : String} {k : FieldKind} (mk : k.Content → α)
    (hnames : Record.names α = [l])
    (hread : ∀ v, (Record.read [v] : Option α) = (k.read? v).map mk)
    (hwrite : ∀ a, Record.write (mk a) = [k.write a]) : Layout α [(l, k)] where
  names_eq := hnames
  map_write_read vs hlength := by
    obtain ⟨v, rfl⟩ := List.length_eq_one_iff.1 hlength
    rw [hread]
    cases ha : k.read? v <;> simp [FieldKind.scalar?, ha, hwrite]

/-- A record of two fields that are read and written one by one. -/
theorem Layout.of_two {α : Type} [Record α] {l m : String} {k₁ k₂ : FieldKind}
    (mk : k₁.Content → k₂.Content → α) (hnames : Record.names α = [l, m])
    (hread : ∀ u v, Record.read [u, v] = (do
      some (mk (← k₁.read? u) (← k₂.read? v)) : Option α))
    (hwrite : ∀ a b, Record.write (mk a b) = [k₁.write a, k₂.write b]) :
    Layout α [(l, k₁), (m, k₂)] where
  names_eq := hnames
  map_write_read vs hlength := by
    obtain ⟨u, v, rfl⟩ := List.length_eq_two.1 hlength
    rw [hread]
    cases ha : k₁.read? u with
    | none => simp [FieldKind.scalar?, ha]
    | some a => cases hb : k₂.read? v <;> simp [FieldKind.scalar?, ha, hb, hwrite]

/-- A record of three fields that are read and written one by one. -/
theorem Layout.of_three {α : Type} [Record α] {l m n : String} {k₁ k₂ k₃ : FieldKind}
    (mk : k₁.Content → k₂.Content → k₃.Content → α) (hnames : Record.names α = [l, m, n])
    (hread : ∀ u v w, Record.read [u, v, w] = (do
      some (mk (← k₁.read? u) (← k₂.read? v) (← k₃.read? w)) : Option α))
    (hwrite : ∀ a b c, Record.write (mk a b c) = [k₁.write a, k₂.write b, k₃.write c]) :
    Layout α [(l, k₁), (m, k₂), (n, k₃)] where
  names_eq := hnames
  map_write_read vs hlength := by
    obtain ⟨u, v, w, rfl⟩ := List.length_eq_three.1 hlength
    rw [hread]
    cases ha : k₁.read? u with
    | none => simp [FieldKind.scalar?, ha]
    | some a =>
      cases hb : k₂.read? v with
      | none => simp [FieldKind.scalar?, ha, hb]
      | some b => cases hc : k₃.read? w <;> simp [FieldKind.scalar?, ha, hb, hc, hwrite]

section Objects

variable {members : List (String × Value)} {d : Bytes}

theorem membersNamed_named (name : String) (members : List (String × Value)) :
    membersNamed name (named members) = valuesNamed name members := by
  unfold membersNamed named valuesNamed
  rw [List.filter_map, List.map_map]
  rfl

theorem field?_named (name : String) (members : List (String × Value)) :
    field? (named members) name = single? (valuesNamed name members) := by
  rw [← membersNamed_named]
  rfl

theorem fieldsOf?_named (names : List String) (members : List (String × Value)) :
    Record.fieldsOf? names (.object (named members))
      = names.mapM fun name => single? (valuesNamed name members) := by
  have hall : (named members).all (·.1.isSome) = true := by
    rw [named, List.all_map, List.all_eq_true]
    exact fun m _ => rfl
  have hfield : field? (named members) = fun name => single? (valuesNamed name members) :=
    funext fun name => field?_named name members
  simp only [Record.fieldsOf?, if_pos hall, hfield]

theorem IsObject.decode?_eq {α : Type} [Record α] (h : IsObject d members) :
    (Record.decode? d : Option α)
      = ((Record.names α).mapM fun name => single? (valuesNamed name members)).bind
        Record.read := by
  unfold Record.decode? Record.ofValue?
  rw [Value.parse?_eq_some_iff.2 h, Option.bind_some, fieldsOf?_named]

end Objects

namespace Layout

variable {α : Type} [Record α] {fields : List (String × FieldKind)}
variable {members : List (String × Value)} {d : Bytes}

theorem decode?_eq (layout : Layout α fields) (h : IsObject d members) :
    (Record.decode? d : Option α)
      = (fields.mapM fun f => single? (valuesNamed f.1 members)).bind Record.read := by
  rw [h.decode?_eq, layout.names_eq, List.mapM_map]
  rfl

/-- What is written for the record of an object is what its fields are read as. -/
theorem map_write_decode? (layout : Layout α fields) (h : IsObject d members) :
    (Record.decode? d : Option α).map Record.write
      = fields.mapM fun f => (single? (valuesNamed f.1 members)).bind f.2.scalar? := by
  have hpasses := mapM_bind_zip (fun f => single? (valuesNamed f.1 members))
    (fun p => p.1.2.scalar? p.2) fields
  refine Eq.trans ?_ hpasses
  rw [layout.decode?_eq h]
  cases hvs : fields.mapM fun f => single? (valuesNamed f.1 members) with
  | none => rfl
  | some vs => exact layout.map_write_read vs (mapM_eq_some_iff.1 hvs).length_eq.symm

theorem decode?_eq_some_iff [LawfulRecord α] (layout : Layout α fields)
    (h : IsObject d members) (a : α) :
    Record.decode? d = some a ↔
      List.Forall₂ (fun f x => f.2.Holds (valuesNamed f.1 members) x) fields (Record.write a) := by
  simp only [← FieldKind.bind_scalar?_eq_some_iff]
  rw [← mapM_eq_some_iff, ← layout.map_write_decode? h, Option.map_eq_some_iff]
  constructor
  · exact fun ha => ⟨a, ha, rfl⟩
  · rintro ⟨b, hb, hwrite⟩
    rw [hb, Record.write_injective hwrite]

theorem exists_iff (layout : Layout α fields) (h : IsObject d members) :
    (∃ a : α, Record.decode? d = some a) ↔
      ∀ f ∈ fields, ∃ x, f.2.Holds (valuesNamed f.1 members) x := by
  have hdecode : (∃ a : α, Record.decode? d = some a) ↔ ∃ xs, fields.mapM
      (fun f => (single? (valuesNamed f.1 members)).bind f.2.scalar?) = some xs := by
    rw [← layout.map_write_decode? h]
    simp only [Option.map_eq_some_iff]
    exact ⟨fun ⟨a, ha⟩ => ⟨_, a, ha, rfl⟩, fun ⟨_, a, ha, _⟩ => ⟨a, ha⟩⟩
  rw [hdecode]
  simp only [mapM_eq_some_iff, FieldKind.bind_scalar?_eq_some_iff, exists_forall₂_iff]

/-- The members of a field do not depend on others. -/
theorem valuesNamed_knownMembers {f : String × FieldKind} (hf : f ∈ fields)
    (members : List (String × Value)) :
    valuesNamed f.1 (knownMembers fields members) = valuesNamed f.1 members := by
  unfold valuesNamed knownMembers
  rw [List.filter_filter]
  congr 1
  refine List.filter_congr fun m _ => ?_
  cases hm : m.1 == f.1 with
  | false => rfl
  | true =>
    rw [Bool.true_and, decide_eq_true_eq, eq_of_beq hm]
    exact List.mem_map_of_mem hf

theorem single?_eq_of_perm {vs ws : List Value} (h : vs.Perm ws) : single? vs = single? ws := by
  match vs, ws, h with
  | [], ws, h => rw [h.nil_eq]
  | [v], ws, h => rw [List.singleton_perm.1 h]
  | _ :: _ :: _, ws, h =>
    match ws, h.length_eq with
    | _ :: _ :: _, _ => rfl

theorem eq_of_perm (layout : Layout α fields) {d' : Bytes} {members' : List (String × Value)}
    (h : IsObject d members) (h' : IsObject d' members')
    (hperm : (knownMembers fields members).Perm (knownMembers fields members')) :
    (Record.decode? d : Option α) = Record.decode? d' := by
  have hvalues : ∀ f ∈ fields,
      single? (valuesNamed f.1 members) = single? (valuesNamed f.1 members') := by
    intro f hf
    rw [← valuesNamed_knownMembers hf, ← valuesNamed_knownMembers hf members']
    exact single?_eq_of_perm ((hperm.filter _).map _)
  rw [layout.decode?_eq h, layout.decode?_eq h', mapM_congr hvalues]

end Layout

/-! ## Around an object -/

section Around

variable {α : Type} [Record α] {members : List (String × Value)} {d x y : Bytes}

theorem IsObject.around (h : IsObject d members) (hx : Blanks x) (hy : Blanks y) :
    IsObject (x ++ (d ++ y)) members := by
  have hafter := h.append hy.written
  rw [List.append_nil] at hafter
  exact hx.written.append hafter

theorem IsObject.decode?_around (h : IsObject d members) (hx : Blanks x) (hy : Blanks y) :
    (Record.decode? (x ++ (d ++ y)) : Option α) = Record.decode? d := by
  rw [h.decode?_eq, (h.around hx hy).decode?_eq]

theorem decode?_eq_none_of_parse? (h : ∀ v, Value.parse? d ≠ some v) :
    (Record.decode? d : Option α) = none := by
  unfold Record.decode?
  rw [Option.eq_none_iff_forall_ne_some.2 h]
  rfl

theorem IsObject.decode?_eq_none_of_before (h : IsObject d members) (hx : ¬Blanks x)
    (hy : Blanks y) : (Record.decode? (x ++ (d ++ y)) : Option α) = none :=
  decode?_eq_none_of_parse? fun _ hparse =>
    hx (blanks_of_parse?_prepend (h.around (x := []) (List.forall_mem_nil _) hy) hparse)

theorem IsObject.decode?_eq_none_of_after (h : IsObject d members) (hx : Blanks x)
    (hy : ¬Blanks y) : (Record.decode? (x ++ (d ++ y)) : Option α) = none := by
  refine decode?_eq_none_of_parse? fun _ hparse => hy ?_
  rw [← List.append_assoc] at hparse
  exact blanks_of_parse?_append (hx.written.append h) hparse

/-- Every name of an object must have a text. -/
theorem decode?_eq_none_of_name {members : List (Option String × Value)}
    (h : Written d (Value.object members).tokens) (hname : none ∈ members.map (·.1)) :
    (Record.decode? d : Option α) = none := by
  obtain ⟨m, hm, hnone⟩ := List.mem_map.1 hname
  have hall : ¬members.all (·.1.isSome) = true := fun hall => by
    have := List.all_eq_true.1 hall m hm
    rw [hnone] at this
    cases this
  unfold Record.decode? Record.ofValue?
  rw [Value.parse?_eq_some_iff.2 h, Option.bind_some, Record.fieldsOf?, if_neg hall]
  rfl

end Around

/-- Records whose type reads these fields one by one are decoded by them. -/
theorem Layout.readsFields {α : Type} [Record α] [LawfulRecord α]
    {fields : List (String × FieldKind)}
    (layout : Layout α fields) : ReadsFields α fields where
  decode?_eq_some_iff h := layout.decode?_eq_some_iff h
  exists_iff h := layout.exists_iff h
  eq_of_perm h h' := layout.eq_of_perm h h'
  eq_of_blanks h _ _ := h.decode?_around
  none_before h _ _ := h.decode?_eq_none_of_before
  none_after h _ _ := h.decode?_eq_none_of_after
  none_of_name h := decode?_eq_none_of_name h

end AgreedOrder.Json
