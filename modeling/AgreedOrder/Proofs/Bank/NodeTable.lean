/-
  AgreedOrder.Proofs.Bank.NodeTable

  The format of node tables, and its inverse. Of the lines that are not blank
  the first is a numeral for the number of the others, and each other one has
  the fields of one node. Whatever text is no table has one fault: it is empty,
  its first line is no numeral, a line is not that of a node, or the number is
  wrong, and the earliest of these counts. But a number so large that no room
  can be set aside is reported as no fault, and nothing else is looked at.

    * `RowOf`, `RowFault` — the lines of nodes, and what is wrong with others.
    * `Numbered` — the lines that are not blank, with their numbers.
    * `OutcomeOf` — what such lines are read as.
    * `table_format` — the format, and how nodes are written in it.
-/

import AgreedOrder.Bank.NodeTable
import AgreedOrder.Proofs.Address
import AgreedOrder.Proofs.Text.Blank
import Mathlib.Data.List.Basic
import Mathlib.Data.List.Forall2

namespace AgreedOrder.Bank.NodeTable

open Text

/-! ## Numbers -/

/-- A field is the port that it is a numeral for. -/
def IsPort (field : String) (port : UInt16) : Prop := Spells false field.toList port.toNat

/-- A field is the number of sixty-four bits that it is a numeral for. -/
def IsCount (field : String) (count : Nat) : Prop :=
  Spells false field.toList count ∧ count ≤ 18446744073709551615

theorem numeral?_u16_eq_some_iff (field : String) (m : Int) : numeral? .u16 field = some m ↔
    ∃ port : UInt16, IsPort field port ∧ m = port.toNat := by
  have hread : numeral? .u16 field = some m ↔ Spells false field.toList m ∧ 0 ≤ m ∧ m ≤ 65535 :=
    numeral?_eq_some_iff (by decide) (by decide) field m
  rw [hread]
  constructor
  · rintro ⟨hspells, hlow, hhigh⟩
    have hm : m = (UInt16.ofNat m.toNat).toNat := by
      rw [UInt16.toNat_ofNat']
      omega
    exact ⟨UInt16.ofNat m.toNat, by rw [IsPort, ← hm]; exact hspells, hm⟩
  · rintro ⟨port, hport, rfl⟩
    have := port.toNat_lt
    exact ⟨hport, by omega, by omega⟩

theorem numeral?_u64_eq_some_iff (field : String) (m : Int) : numeral? .u64 field = some m ↔
    ∃ count : Nat, IsCount field count ∧ m = count := by
  have hread : numeral? .u64 field = some m ↔
      Spells false field.toList m ∧ 0 ≤ m ∧ m ≤ 18446744073709551615 :=
    numeral?_eq_some_iff (by decide) (by decide) field m
  rw [hread]
  constructor
  · rintro ⟨hspells, hlow, hhigh⟩
    obtain ⟨count, rfl⟩ := Int.eq_ofNat_of_zero_le hlow
    exact ⟨count, ⟨hspells, by omega⟩, rfl⟩
  · rintro ⟨count, ⟨hspells, hle⟩, rfl⟩
    exact ⟨hspells, by omega, by omega⟩

/-! ## Rows -/

/-- The line of a node: its id, a host that is an address, and a port. -/
inductive RowOf (line : String) : Node → Prop
  | row {id host port : String} {p : UInt16} {address : Address}
      (words : FieldsOf line.toList [id, host, port]) (numeral : IsPort port p)
      (literal : Address.ofHost? host p = some address) : RowOf line ⟨id, address⟩

/-- What is wrong with a line, by its number, that is not that of a node. The port is looked at
    before the host. -/
inductive RowFault (number : Nat) (line : String) : TableFault → Prop
  | shape {fields : List String} (words : FieldsOf line.toList fields) (other : fields.length ≠ 3) :
      RowFault number line (.badLine number line)
  | port {id host port : String} (words : FieldsOf line.toList [id, host, port])
      (numeral : ∀ p, ¬IsPort port p) : RowFault number line (.badPort number port)
  | host {id host port : String} {p : UInt16} (words : FieldsOf line.toList [id, host, port])
      (numeral : IsPort port p) (literal : Address.ofHost? host p = none) :
      RowFault number line (.unknownHost number)

theorem numeral?_of_isPort {field : String} {p : UInt16} (h : IsPort field p) :
    numeral? .u16 field = some (p.toNat : Int) :=
  (numeral?_u16_eq_some_iff field p.toNat).2 ⟨p, h, rfl⟩

theorem node_eq_ok_iff (number : Nat) (line : String) (n : Node) :
    node number line = .ok n ↔ RowOf line n := by
  constructor
  · intro h
    unfold node at h
    split at h
    · rename_i id host port hfields
      split at h
      · cases h
      · rename_i m hm
        obtain ⟨p, hp, rfl⟩ := (numeral?_u16_eq_some_iff port m).1 hm
        split at h
        · cases h
        · rename_i address haddress
          cases h
          rw [Int.toNat_natCast, UInt16.ofNat_toNat] at haddress
          exact .row ((fields_eq_iff line _).1 hfields) hp haddress
    · cases h
  · rintro ⟨words, numeral, literal⟩
    simp [node, (fields_eq_iff line _).2 words, numeral?_of_isPort numeral, literal]

theorem node_eq_error_iff (number : Nat) (line : String) (f : TableFault) :
    node number line = .error f ↔ RowFault number line f := by
  constructor
  · intro h
    unfold node at h
    split at h
    · rename_i id host port hfields
      have words := (fields_eq_iff line _).1 hfields
      split at h
      · rename_i hnone
        cases h
        refine .port words fun p hp => ?_
        rw [numeral?_of_isPort hp] at hnone
        cases hnone
      · rename_i m hm
        obtain ⟨p, hp, rfl⟩ := (numeral?_u16_eq_some_iff port m).1 hm
        split at h
        · rename_i haddress
          cases h
          rw [Int.toNat_natCast, UInt16.ofNat_toNat] at haddress
          exact .host words hp haddress
        · cases h
    · rename_i hshape
      cases h
      refine .shape (fieldsOf_fields line) fun hlength => ?_
      obtain ⟨id, host, port, hfields⟩ := List.length_eq_three.1 hlength
      exact hshape id host port hfields
  · intro h
    cases h with
    | shape words other =>
      have hfields := (fields_eq_iff line _).2 words
      unfold node
      split
      · rename_i hthree
        rw [← hfields, hthree] at other
        exact absurd rfl other
      · rfl
    | @port id host port words numeral =>
      have hnone : numeral? .u16 port = none := by
        cases hm : numeral? .u16 port with
        | none => rfl
        | some m =>
          obtain ⟨p, hp, -⟩ := (numeral?_u16_eq_some_iff port m).1 hm
          exact absurd hp (numeral p)
      simp [node, (fields_eq_iff line _).2 words, hnone]
    | host words numeral literal =>
      simp [node, (fields_eq_iff line _).2 words, numeral?_of_isPort numeral, literal]

/-! ## Rows one after the other -/

section Traversal

variable {α β ε : Type} {f : α → Except ε β}

/-- A traversal succeeds where every element does. -/
theorem mapM_eq_ok_iff (xs : List α) (ys : List β) :
    xs.mapM f = .ok ys ↔ List.Forall₂ (fun x y => f x = .ok y) xs ys := by
  induction xs generalizing ys with
  | nil => simp [pure, Except.pure, eq_comm]
  | cons x xs ih =>
    rw [List.mapM_cons, List.forall₂_cons_left_iff]
    cases hx : f x with
    | error e => simp [bind, Except.bind]
    | ok y =>
      cases hxs : xs.mapM f with
      | error e =>
        have hnone : ∀ ys, ¬List.Forall₂ (fun x y => f x = .ok y) xs ys := fun ys h => by
          rw [← ih, hxs] at h
          cases h
        simp [bind, Except.bind, hnone]
      | ok zs =>
        have hone : ∀ ys, List.Forall₂ (fun x y => f x = .ok y) xs ys ↔ zs = ys := fun ys => by
          rw [← ih, hxs, Except.ok.injEq]
        simp [bind, Except.bind, pure, Except.pure, hone, eq_comm]

/-- A traversal fails as the first element that fails. -/
theorem mapM_of_error {before : List α} {x : α} {ys : List β} {e : ε}
    (hbefore : before.mapM f = .ok ys) (hx : f x = .error e) (after : List α) :
    (before ++ x :: after).mapM f = .error e := by
  rw [List.mapM_append, hbefore, List.mapM_cons, hx]
  rfl

/-- A traversal that fails has a first element that fails. -/
theorem exists_of_mapM_error {xs : List α} {e : ε} (h : xs.mapM f = .error e) :
    ∃ before x after ys, xs = before ++ x :: after ∧ before.mapM f = .ok ys ∧
      f x = .error e := by
  induction xs with
  | nil => cases h
  | cons x xs ih =>
    rw [List.mapM_cons] at h
    cases hx : f x with
    | error e' =>
      rw [hx] at h
      cases h
      exact ⟨[], x, xs, [], rfl, rfl, hx⟩
    | ok y =>
      cases hxs : xs.mapM f with
      | ok ys =>
        rw [hx, hxs] at h
        cases h
      | error e' =>
        rw [hx, hxs] at h
        cases h
        obtain ⟨before, x', after, ys, rfl, hbefore, hx'⟩ := ih hxs
        refine ⟨x :: before, x', after, y :: ys, rfl, ?_, hx'⟩
        rw [List.mapM_cons, hx, hbefore]
        rfl

end Traversal

/-- These lines are those of these nodes. -/
def Rows (lines : List (Nat × String)) (ns : List Node) : Prop :=
  List.Forall₂ (fun l n => RowOf l.2 n) lines ns

/-- What lines that are not blank, trimmed and with their numbers, are to be read as. Of several
    faults it is the first that counts, and the number of nodes is compared last. -/
inductive OutcomeOf : List (Nat × String) → TableOutcome → Prop
  | empty : OutcomeOf [] (.fault .empty)
  | badCount {k : Nat} {header : String} {lines : List (Nat × String)}
      (numeral : ∀ count, ¬IsCount header count) :
      OutcomeOf ((k, header) :: lines) (.fault (.badCount header))
  | badRow {k count number : Nat} {header line : String} {before after : List (Nat × String)}
      {ns : List Node} {f : TableFault} (numeral : IsCount header count) (rows : Rows before ns)
      (fault : RowFault number line f) :
      OutcomeOf ((k, header) :: (before ++ (number, line) :: after)) (.fault f)
  | wrongCount {k count : Nat} {header : String} {lines : List (Nat × String)} {ns : List Node}
      (numeral : IsCount header count) (rows : Rows lines ns) (other : ns.length ≠ count) :
      OutcomeOf ((k, header) :: lines) (.fault (.wrongCount count ns.length))
  | nodes {k : Nat} {header : String} {lines : List (Nat × String)} {ns : List Node}
      (numeral : IsCount header ns.length) (rows : Rows lines ns) :
      OutcomeOf ((k, header) :: lines) (.nodes ns)

/-- The first of these lines is not a numeral for more nodes than there is room for. -/
def LeavesRoom : List (Nat × String) → Prop
  | [] => True
  | (_, header) :: _ => ∀ count, IsCount header count → hasRoom count = true

theorem mapM_node_eq_ok_iff (lines : List (Nat × String)) (ns : List Node) :
    (lines.mapM fun l => node l.1 l.2) = .ok ns ↔ Rows lines ns := by
  rw [mapM_eq_ok_iff]
  simp only [node_eq_ok_iff, Rows]

theorem numeral?_of_isCount {field : String} {count : Nat} (h : IsCount field count) :
    numeral? .u64 field = some (count : Int) :=
  (numeral?_u64_eq_some_iff field count).2 ⟨count, h, rfl⟩

/-- If there is room, what a text is read as is the outcome of its lines, and they have one. -/
theorem parse_eq_iff {text : String} {rows : List (Nat × String)}
    (hrows : numberedLines text = rows) (hroom : LeavesRoom rows) (o : TableOutcome) :
    parse text = o ↔ OutcomeOf rows o := by
  unfold parse
  rw [hrows]
  constructor
  · rintro rfl
    split
    · exact .empty
    · rename_i k header lines
      split
      · rename_i hnone
        refine .badCount fun count hcount => ?_
        rw [numeral?_of_isCount hcount] at hnone
        cases hnone
      · rename_i m hm
        obtain ⟨count, hcount, rfl⟩ := (numeral?_u64_eq_some_iff header m).1 hm
        rw [Int.toNat_natCast, if_pos (hroom count hcount)]
        -- A line that is at fault comes before a number that is wrong.
        split
        · rename_i f hf
          obtain ⟨before, ⟨number, line⟩, after, ns, rfl, hbefore, hline⟩ :=
            exists_of_mapM_error hf
          exact .badRow hcount ((mapM_node_eq_ok_iff before ns).1 hbefore)
            ((node_eq_error_iff number line f).1 hline)
        · rename_i ns hns
          have rows := (mapM_node_eq_ok_iff lines ns).1 hns
          split
          · rename_i hlength
            subst hlength
            exact .nodes hcount rows
          · rename_i other
            exact .wrongCount hcount rows other
  · intro h
    cases h with
    | empty => rfl
    | @badCount k header lines numeral =>
      have hnone : numeral? .u64 header = none := by
        cases hm : numeral? .u64 header with
        | none => rfl
        | some m =>
          obtain ⟨count, hcount, -⟩ := (numeral?_u64_eq_some_iff header m).1 hm
          exact absurd hcount (numeral count)
      simp only [hnone]
    | @badRow k count number header line before after ns f numeral rows fault =>
      have hbefore := (mapM_node_eq_ok_iff before ns).2 rows
      have hline := (node_eq_error_iff number line f).2 fault
      have hall := mapM_of_error (x := (number, line)) hbefore hline after
      simp only [numeral?_of_isCount numeral, Int.toNat_natCast, hroom count numeral, if_true,
        hall]
    | @wrongCount k count header lines ns numeral rows other =>
      simp [numeral?_of_isCount numeral, hroom count numeral,
        (mapM_node_eq_ok_iff lines ns).2 rows, other]
    | @nodes k header lines ns numeral rows =>
      simp [numeral?_of_isCount numeral, hroom ns.length numeral,
        (mapM_node_eq_ok_iff lines ns).2 rows]

/-- If there is no room, nothing else of a text is looked at. -/
theorem parse_of_noRoom {text : String} {rows : List (Nat × String)}
    (hrows : numberedLines text = rows) (hroom : ¬LeavesRoom rows) :
    ∃ count, parse text = .noRoom count := by
  cases rows with
  | nil => exact absurd trivial hroom
  | cons first lines =>
    obtain ⟨k, header⟩ := first
    simp only [LeavesRoom, not_forall, Bool.not_eq_true] at hroom
    obtain ⟨count, numeral, room⟩ := hroom
    refine ⟨count, ?_⟩
    unfold parse
    rw [hrows]
    simp [numeral?_of_isCount numeral, room]

/-! ## Lines with their numbers -/

/-- Of these lines, the first of which has this number, those that are not blank are these, trimmed
    and with their numbers. -/
inductive Numbered : Nat → List String → List (Nat × String) → Prop
  | nil {number : Nat} : Numbered number [] []
  | blank {number : Nat} {line : String} {ls : List String} {rows : List (Nat × String)}
      (blank : isAllBlank line = true) (rest : Numbered (number + 1) ls rows) :
      Numbered number (line :: ls) rows
  | line {number : Nat} {line : String} {ls : List String} {rows : List (Nat × String)}
      (blank : isAllBlank line = false) (rest : Numbered (number + 1) ls rows) :
      Numbered number (line :: ls) ((number, trim line) :: rows)

/-- The lines that are not blank, from a number on. -/
def numberedFrom (number : Nat) (ls : List String) : List (Nat × String) :=
  ((ls.map trim).zipIdx number).filterMap fun (line, number) =>
    if line.isEmpty then none else some (number, line)

theorem numberedLines_eq (text : String) : numberedLines text = numberedFrom 1 (lines text) := rfl

theorem numbered_numberedFrom (number : Nat) (ls : List String) :
    Numbered number ls (numberedFrom number ls) := by
  induction ls generalizing number with
  | nil => exact .nil
  | cons line ls ih =>
    have hcons : numberedFrom number (line :: ls) = if isAllBlank line then
        numberedFrom (number + 1) ls else (number, trim line) :: numberedFrom (number + 1) ls := by
      simp only [numberedFrom, List.map_cons, List.zipIdx_cons, List.filterMap_cons, isEmpty_trim]
      cases isAllBlank line <;> rfl
    rw [hcons]
    cases hblank : isAllBlank line with
    | true => exact .blank hblank (ih (number + 1))
    | false => exact .line hblank (ih (number + 1))

theorem Numbered.unique {number : Nat} {ls : List String} {rows rows' : List (Nat × String)}
    (h : Numbered number ls rows) (h' : Numbered number ls rows') : rows = rows' := by
  induction h generalizing rows' with
  | nil =>
    cases h'
    rfl
  | blank hblank _ ih =>
    cases h' with
    | blank _ rest => exact ih rest
    | line hother => simp [hblank] at hother
  | line hblank _ ih =>
    cases h' with
    | blank hother => simp [hblank] at hother
    | line _ rest => rw [ih rest]

/-- What stands on the lines that are not blank. -/
theorem Numbered.map_snd {number : Nat} {ls : List String} {rows : List (Nat × String)}
    (h : Numbered number ls rows) :
    rows.map (·.2) = (ls.filter fun line => !isAllBlank line).map trim := by
  induction h with
  | nil => rfl
  | blank hblank _ ih => rw [ih, List.filter_cons_of_neg (by simp [hblank])]
  | line hblank _ ih =>
    rw [List.map_cons, ih, List.filter_cons_of_pos (by simp [hblank]), List.map_cons]

/-! ## Written tables -/

/-- A node that a table can hold: its id is a word, and its address that of a host. -/
def Tabular (n : Node) : Prop := IsWord n.id ∧ n.address.IsHost

/-- The line of a node. -/
def row (n : Node) : String :=
  n.id ++ " " ++ n.address.hostText ++ " " ++ toString n.address.port.toNat

theorem isPort_toString (p : UInt16) : IsPort (toString p.toNat) p :=
  spells_toString_nat false p.toNat

theorem toList_row (n : Node) : (row n).toList = n.id.toList
    ++ ' ' :: (n.address.hostText.toList ++ ' ' :: (toString n.address.port.toNat).toList) := by
  simp [row]

theorem rowOf_row {n : Node} (h : Tabular n) : RowOf (row n) n := by
  have hblank : isBlank ' ' = true := by decide
  refine .row ?_ (isPort_toString n.address.port) (Address.ofHost?_hostText h.2)
  rw [toList_row]
  exact .word h.1 hblank (.word (Address.isWord_hostText h.2) hblank
    (.last (isPort_toString n.address.port).isWord))

theorem trim_row {n : Node} (h : Tabular n) : trim (row n) = row n := by
  have hends : (row n).toList = n.id.toList ++ ((' ' :: (n.address.hostText.toList ++ [' ']))
      ++ (toString n.address.port.toNat).toList) := by
    rw [toList_row]
    simp
  exact trim_of_words h.1 (isPort_toString n.address.port).isWord hends

/-- The nodes of a table are such that a table can hold them. -/
theorem RowOf.tabular {line : String} {n : Node} (h : RowOf line n) : Tabular n := by
  cases h with
  | row words numeral literal =>
    exact ⟨words.isWord _ (List.mem_cons_self ..),
      ((Address.exists_ofHost?_iff _ _).1 ⟨_, literal⟩).1⟩

theorem Rows.tabular {lines : List (Nat × String)} {ns : List Node} (h : Rows lines ns) :
    ∀ n ∈ ns, Tabular n := by
  induction h with
  | nil => exact nofun
  | cons hrow _ ih => exact List.forall_mem_cons.2 ⟨hrow.tabular, ih⟩

theorem isCount_toString {count : Nat} (room : hasRoom count = true) :
    IsCount (toString count) count := by
  refine ⟨spells_toString_nat false count, ?_⟩
  unfold hasRoom nodeSize at room
  have hle := of_decide_eq_true room
  omega

theorem IsCount.unique {field : String} {count count' : Nat} (h : IsCount field count)
    (h' : IsCount field count') : count = count' := by
  have hsome := numeral?_of_isCount h
  rw [numeral?_of_isCount h', Option.some.injEq] at hsome
  omega

/-- A table for nodes is read as them, wherever blank lines stand in it. -/
theorem parse_of_filter {text : String} {ns : List Node} (room : hasRoom ns.length = true)
    (tabular : ∀ n ∈ ns, Tabular n) (hfilter : ((lines text).filter fun line => !isAllBlank line)
      = toString ns.length :: ns.map row) : parse text = .nodes ns := by
  have hcount := isCount_toString room
  have htrim : (toString ns.length :: ns.map row).map trim = toString ns.length :: ns.map row := by
    rw [List.map_cons, hcount.1.isWord.trim_eq_self, List.map_map]
    exact congrArg _ (List.map_congr_left fun n hn => trim_row (tabular n hn))
  have htexts := (numbered_numberedFrom 1 (lines text)).map_snd
  rw [hfilter, htrim] at htexts
  cases hrows : numberedFrom 1 (lines text) with
  | nil =>
    rw [hrows] at htexts
    cases htexts
  | cons first rows =>
    obtain ⟨k, header⟩ := first
    rw [hrows, List.map_cons] at htexts
    obtain ⟨rfl, hrest⟩ := List.cons.inj htexts
    have hroom : LeavesRoom ((k, toString ns.length) :: rows) := fun count h => by
      rwa [h.unique hcount]
    rw [parse_eq_iff (numberedLines_eq text |>.trans hrows) hroom]
    refine .nodes hcount ?_
    have hself : List.Forall₂ RowOf (ns.map row) ns := by
      rw [List.forall₂_map_left_iff, List.forall₂_same]
      exact fun n hn => rowOf_row (tabular n hn)
    rw [← hrest, List.forall₂_map_left_iff] at hself
    exact hself

/-! ## The format -/

/-- Where its first line leaves room, a text is read as its lines say that are not blank, trimmed
    and numbered from one with the blank ones counted: they are the number of its nodes and a line
    for each, or there is a fault, the first of which is reported. Where it leaves none, reading
    comes to nothing. The nodes that are read have words for ids and addresses of hosts, and any
    such nodes that there is room for are read from the lines that are written for them, with blank
    lines anywhere. -/
theorem table_format {text : String} {rows : List (Nat × String)}
    (hrows : Numbered 1 (lines text) rows) :
    (LeavesRoom rows → ∀ o, parse text = o ↔ OutcomeOf rows o) ∧
    (¬LeavesRoom rows → ∃ count, parse text = .noRoom count) ∧
    (∀ ns, parse text = .nodes ns → hasRoom ns.length = true ∧ ∀ n ∈ ns, Tabular n) ∧
    ∀ ns, hasRoom ns.length = true → (∀ n ∈ ns, Tabular n) →
      ((lines text).filter fun line => !isAllBlank line) = toString ns.length :: ns.map row →
        parse text = .nodes ns := by
  have hlines : numberedLines text = rows := (numbered_numberedFrom 1 (lines text)).unique hrows
  refine ⟨parse_eq_iff hlines, parse_of_noRoom hlines, ?_, fun ns => parse_of_filter⟩
  intro ns h
  by_cases hroom : LeavesRoom rows
  · cases (parse_eq_iff hlines hroom (.nodes ns)).1 h with
    | nodes numeral rows => exact ⟨hroom ns.length numeral, rows.tabular⟩
  · obtain ⟨count, hnone⟩ := parse_of_noRoom hlines hroom
    rw [h] at hnone
    cases hnone

/-- A table of two nodes. -/
def pairText : String := "\n 2\nE ::1 80\n \nF 127.0.0.1 443\n"

/-- The blank lines of the table count in the numbers of the others. -/
theorem table_format_of_pair :
    Numbered 1 (lines pairText) [(2, "2"), (3, "E ::1 80"), (5, "F 127.0.0.1 443")] ∧
      parse pairText = .nodes
        [⟨"E", .v6 ⟨[0, 0, 0, 0, 0, 0, 0, 1], rfl⟩ 80 0⟩, ⟨"F", .v4 .loopback 443⟩] := by
  have hrows : Numbered 1 (lines pairText)
      [(2, "2"), (3, "E ::1 80"), (5, "F 127.0.0.1 443")] := by
    have hfrom : numberedFrom 1 (lines pairText)
        = [(2, "2"), (3, "E ::1 80"), (5, "F 127.0.0.1 443")] := by decide +kernel
    exact hfrom ▸ numbered_numberedFrom 1 (lines pairText)
  have hcount : IsCount "2" 2 := isCount_toString (show hasRoom 2 = true by decide)
  have hroom : LeavesRoom [(2, "2"), (3, "E ::1 80"), (5, "F 127.0.0.1 443")] := by
    intro count h
    rw [h.unique hcount]
    decide
  refine ⟨hrows, ((table_format hrows).1 hroom _).2 (.nodes hcount ?_)⟩
  have hE : node 3 "E ::1 80" = .ok ⟨"E", .v6 ⟨[0, 0, 0, 0, 0, 0, 0, 1], rfl⟩ 80 0⟩ := by
    decide +kernel
  have hF : node 5 "F 127.0.0.1 443" = .ok ⟨"F", .v4 .loopback 443⟩ := by decide +kernel
  exact .cons ((node_eq_ok_iff ..).1 hE) (.cons ((node_eq_ok_iff ..).1 hF) .nil)

/-- There are texts that are read neither as nodes nor as a fault. -/
theorem not_all_read : ¬ ∀ text, (∃ ns, parse text = .nodes ns) ∨ ∃ f, parse text = .fault f := by
  intro h
  have hparse : parse "18446744073709551615\n" = .noRoom 18446744073709551615 := by
    decide +kernel
  rcases h "18446744073709551615\n" with ⟨ns, hns⟩ | ⟨f, hf⟩
  · rw [hparse] at hns
    cases hns
  · rw [hparse] at hf
    cases hf

end AgreedOrder.Bank.NodeTable
