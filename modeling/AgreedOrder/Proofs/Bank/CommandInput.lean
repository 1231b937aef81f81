/-
  AgreedOrder.Proofs.Bank.CommandInput

  What a node submits of an input. Its lines are independent of each other as
  long as they are text: those that are commands are submitted, in their order,
  and any other one is passed over, with a warning unless it is blank. A line
  that is no text ends the input, whatever stands after it.

    * `LinesOf` — the lines of a byte string, apart from how they are found.
    * `Reading` — the kinds of lines.
    * `Submits` — a group takes transactions, one after the other.
    * `foldl_take_line`, `foldl_take` — what one line and what all lines come to.
    * `run_of_submits`, `every_command_submitted` — what an input comes to.
-/

import AgreedOrder.Bank.CommandInput
import AgreedOrder.Proofs.Bank.Command
import AgreedOrder.Proofs.Bank.Replaying
import AgreedOrder.Proofs.LineReader

namespace AgreedOrder.Bank

open Text

namespace CommandInput

/-! ## Lines -/

/-- These bytes are these lines in this order. Each ends at its line feed, with or without a
    carriage return before it; the last one need not end. -/
inductive LinesOf : Bytes → List Bytes → Prop
  | nil : LinesOf [] []
  | last {l : Bytes} (hne : l ≠ []) (unended : 0x0A ∉ l) : LinesOf l [l]
  | line {l bs : Bytes} {ls : List Bytes} (unended : 0x0A ∉ l) (rest : LinesOf bs ls) :
      LinesOf (l ++ 0x0A :: bs) (LineReader.dropReturn l :: ls)

theorem lines_eq (bs : Bytes) : lines bs =
    (LineReader.terminated bs).map LineReader.dropReturn ++
      if LineReader.unterminated bs = [] then [] else [LineReader.unterminated bs] := by
  have hpieces : splitWhere (· == 0x0A) bs = splitWhere LineReader.isLineFeed bs := rfl
  unfold lines LineReader.terminated LineReader.unterminated
  dsimp only
  rw [hpieces, List.getLastD_eq_getLast?]
  split
  · rename_i heq
    rw [heq]
    rfl
  · rename_i hnone
    rw [if_pos, List.append_nil]
    · rfl
    · cases hlast : (splitWhere LineReader.isLineFeed bs).getLast? with
      | none => rfl
      | some piece =>
        cases piece with
        | nil => rfl
        | cons b rest => exact absurd hlast (hnone b rest)

theorem lines_of_not_mem {l : Bytes} (hne : l ≠ []) (h : 0x0A ∉ l) : lines l = [l] := by
  rw [lines_eq, LineReader.terminated_of_not_mem h, LineReader.unterminated_of_not_mem h,
    if_neg hne]
  rfl

theorem lines_append_cons {l : Bytes} (h : 0x0A ∉ l) (bs : Bytes) :
    lines (l ++ 0x0A :: bs) = LineReader.dropReturn l :: lines bs := by
  rw [lines_eq, lines_eq, LineReader.terminated_append_cons h,
    LineReader.unterminated_append_cons h, List.map_cons, List.cons_append]

/-- Any bytes are lines. -/
theorem exists_linesOf (bs : Bytes) : ∃ ls, LinesOf bs ls := by
  induction hlength : bs.length using Nat.strongRecOn generalizing bs with
  | ind n ih =>
    by_cases hmem : (0x0A : UInt8) ∈ bs
    · obtain ⟨l, rest, rfl, hl⟩ := List.eq_append_cons_of_mem hmem
      obtain ⟨ls, hls⟩ := ih rest.length (by rw [← hlength]; simp; omega) rest rfl
      exact ⟨_, .line hl hls⟩
    · by_cases hnil : bs = []
      · exact ⟨[], hnil ▸ .nil⟩
      · exact ⟨[bs], .last hnil hmem⟩

/-- The lines that are read are the lines of the bytes. -/
theorem lines_eq_iff (bs : Bytes) (ls : List Bytes) : lines bs = ls ↔ LinesOf bs ls := by
  have hlines {ls : List Bytes} (h : LinesOf bs ls) : lines bs = ls := by
    induction h with
    | nil => rfl
    | last hne unended => exact lines_of_not_mem hne unended
    | line unended _ ih => rw [lines_append_cons unended, ih]
  constructor
  · rintro rfl
    obtain ⟨ls, hls⟩ := exists_linesOf bs
    rw [hlines hls]
    exact hls
  · exact hlines

/-! ## What a line comes to -/

/-- Whether a line is text. -/
def isText (line : Bytes) : Bool := line.toText?.isSome

/-- The transaction of a line, if it is a command. -/
def command? (line : Bytes) : Option Transaction :=
  line.toText?.bind fun s => (Command.parse s).toOption

/-- The warning that a line is passed over. -/
def skipped (e : BankError) : LogLine :=
  ⟨.warn, "encode input msg failed with err: " ++ e.message ++ ", skip"⟩

/-- What is logged of a text that is neither blank nor a command. -/
def warning? (line : Bytes) : Option LogLine :=
  line.toText?.bind fun s =>
    match Command.parse s with
    | .ok _ => none
    | .error f =>
      if isAllBlank s then none else some (skipped (.command s f))

/-- What a line is read as, and what becomes of it. -/
inductive Reading (line : Bytes) : Option InputLine → Prop
  | notText (text : isText line = false) : Reading line (some .notText)
  | blank (text : isText line = true) (command : command? line = none)
      (warning : warning? line = none) : Reading line none
  | malformed {e : BankError} (text : isText line = true) (command : command? line = none)
      (warning : warning? line = some (skipped e)) : Reading line (some (.malformed e))
  | transaction {t : Transaction} (text : isText line = true) (command : command? line = some t)
      (warning : warning? line = none) : Reading line (some (.transaction t))

/-- Every line is of one of these kinds: a blank one is no command. -/
theorem reading (line : Bytes) : Reading line (read line) := by
  cases htext : line.toText? with
  | none =>
    rw [show read line = some .notText by simp [read, htext]]
    exact .notText (by simp [isText, htext])
  | some s =>
    have text : isText line = true := by simp [isText, htext]
    cases hparse : Command.parse s with
    | ok t =>
      have hblank : isAllBlank s = false := by
        rw [Bool.eq_false_iff]
        intro hblank
        rw [Command.parse, fields_of_isAllBlank hblank] at hparse
        cases hparse
      rw [show read line = some (.transaction t) by simp [read, htext, hblank, hparse]]
      exact .transaction text (by simp [command?, htext, hparse, Except.toOption])
        (by simp [warning?, htext, hparse])
    | error f =>
      have command : command? line = none := by
        simp [command?, htext, hparse, Except.toOption]
      cases hblank : isAllBlank s with
      | true =>
        rw [show read line = none by simp [read, htext, hblank]]
        exact .blank text command (by simp [warning?, htext, hparse, hblank])
      | false =>
        rw [show read line = some (.malformed (.command s f)) by
          simp [read, htext, hblank, hparse]]
        exact .malformed text command (by simp [warning?, htext, hparse, hblank])

theorem read_eq_notText_iff (line : Bytes) :
    read line = some .notText ↔ isText line = false := by
  have hkind := reading line
  generalize read line = r at hkind
  cases hkind with
  | notText text => simp [text]
  | blank text | malformed text | transaction text => simp [text]

/-! ## Transactions one after the other -/

/-- The group takes these transactions of a node, one after the other, and is then as it is. -/
inductive Submits (node : NodeId) : Group Replica → List Transaction → Group Replica → Prop
  | done {g : Group Replica} : Submits node g [] g
  | next {g g' : Group Replica} {t : Transaction} {ts : List Transaction} {id : MessageId}
      (accepted : (g.submit node t.message false).1 = .ok id)
      (rest : Submits node (g.submit node t.message false).2 ts g') : Submits node g (t :: ts) g'

variable {node : NodeId}

theorem Submits.of_append {g g' : Group Replica} {ts ts' : List Transaction}
    (h : Submits node g (ts ++ ts') g') : ∃ g₁, Submits node g ts g₁ ∧ Submits node g₁ ts' g' := by
  induction ts generalizing g with
  | nil => exact ⟨g, .done, h⟩
  | cons t ts ih =>
    cases h with
    | next accepted rest =>
      obtain ⟨g₁, hfirst, hrest⟩ := ih rest
      exact ⟨g₁, .next accepted hfirst, hrest⟩

/-! ## Lines one after the other -/

/-- The lines that are taken: those before the first one that is no text. -/
def heard (ls : List Bytes) : List Bytes := ls.takeWhile isText

/-- The commands of the lines that are taken. -/
def commands (ls : List Bytes) : List Transaction := (heard ls).filterMap command?

/-- What is logged of the lines that are taken. -/
def warnings (ls : List Bytes) : List LogLine := (heard ls).filterMap warning?

/-- What lines come to, up to one that is no text. -/
def eventsOf (ls : List Bytes) : List InputLine :=
  let all := ls.filterMap read
  all.takeWhile (· != .notText) ++ (all.filter (· == .notText)).take 1

theorem events_eq (input : Bytes) : events input = eventsOf (lines input) := rfl

section Cons

variable {line : Bytes} {ls : List Bytes}

theorem filterMap_cons_eq {α β : Type} (f : α → Option β) (a : α) (l : List α) :
    (a :: l).filterMap f = (f a).toList ++ l.filterMap f := by
  cases h : f a <;> simp [h]

theorem commands_cons (text : isText line = true) :
    commands (line :: ls) = (command? line).toList ++ commands ls := by
  rw [commands, heard, List.takeWhile_cons_of_pos text, filterMap_cons_eq]
  rfl

theorem warnings_cons (text : isText line = true) :
    warnings (line :: ls) = (warning? line).toList ++ warnings ls := by
  rw [warnings, heard, List.takeWhile_cons_of_pos text, filterMap_cons_eq]
  rfl

theorem eventsOf_cons (text : isText line = true) :
    eventsOf (line :: ls) = (read line).toList ++ eventsOf ls := by
  have hne : read line ≠ some .notText := by
    rw [Ne, read_eq_notText_iff, text]
    decide
  cases hread : read line with
  | none => simp [eventsOf, hread]
  | some e =>
    have he : e ≠ .notText := fun heq => hne (heq ▸ hread)
    simp [eventsOf, hread, he]

/-- Nothing is looked at after a line that is no text. -/
theorem eventsOf_cons_of_notText (text : isText line = false) :
    eventsOf (line :: ls) = [.notText] := by
  simp [eventsOf, (read_eq_notText_iff line).2 text]

end Cons

/-- What one line comes to: its transaction is submitted and counted, or its warning logged. -/
theorem foldl_take_line {g g' : Group Replica} {line : Bytes} (text : isText line = true)
    (taken : Submits node g (command? line).toList g') (n : Nat) (log : List LogLine) :
    (read line).toList.foldl (take node) (⟨n, log, none⟩, g) =
      (⟨n + (command? line).toList.length, log ++ (warning? line).toList, none⟩, g') := by
  have hkind := reading line
  generalize read line = r at hkind
  cases hkind with
  | notText notText => simp [text] at notText
  | blank _ command warning =>
    rw [command] at taken ⊢
    cases taken
    simp [warning]
  | malformed _ command warning =>
    rw [command] at taken ⊢
    cases taken
    simp [warning, take, skipped]
  | @transaction t _ command warning =>
    rw [command] at taken ⊢
    cases taken with
    | @next _ _ _ _ id accepted rest =>
      cases rest
      have hsubmit : g.submit node ⟨t.path, t.encode⟩ false
          = (.ok id, (g.submit node t.message false).2) := Prod.ext accepted rfl
      simp [warning, take, hsubmit]

/-- What all lines come to, by induction on them. -/
theorem foldl_take {g g' : Group Replica} {ls : List Bytes} (n : Nat) (log : List LogLine)
    (taken : Submits node g (commands ls) g') :
    (eventsOf ls).foldl (take node) (⟨n, log, none⟩, g) =
      (⟨n + (commands ls).length, log ++ warnings ls,
        if ls.all isText then none else some .io⟩, g') := by
  induction ls generalizing g n log with
  | nil =>
    cases taken
    simp [eventsOf, commands, warnings, heard]
  | cons line rest ih =>
    cases text : isText line with
    | false =>
      -- No line after this one is heard, so the group takes nothing more.
      have hcommands : commands (line :: rest) = [] := by simp [commands, heard, text]
      rw [hcommands] at taken ⊢
      cases taken
      rw [eventsOf_cons_of_notText text]
      simp [take, warnings, heard, text]
    | true =>
      rw [commands_cons text] at taken ⊢
      obtain ⟨g₁, hfirst, hrest⟩ := taken.of_append
      rw [eventsOf_cons text, List.foldl_append, foldl_take_line text hfirst, ih _ _ hrest,
        warnings_cons text, List.all_cons, text, List.length_append, Nat.add_assoc,
        List.append_assoc, Bool.true_and]

/-! ## Inputs -/

/-- What is logged at the end of an input. -/
def ended (n : Nat) : LogLine :=
  ⟨.info, "input reach EOF after " ++ toString n ++ " transactions"⟩

/-- If the group takes every command that is heard, these are submitted, and no others. -/
theorem run_of_submits {input : Bytes} {ls : List Bytes} {g g' : Group Replica}
    (hlines : LinesOf input ls) (taken : Submits node g (commands ls) g') :
    run node input g =
      (if ls.all isText then
        ⟨(commands ls).length, warnings ls ++ [ended (commands ls).length], none⟩
      else ⟨(commands ls).length, warnings ls, some .io⟩, g') := by
  have hrun := foldl_take 0 [] taken
  rw [Nat.zero_add, List.nil_append] at hrun
  unfold run
  rw [events_eq, (lines_eq_iff input ls).2 hlines, hrun]
  cases ls.all isText <;> rfl

/-- Let the group take every command of an input. If every line is text, exactly the commands are
    submitted, in the order of their lines, each on the path of its type and with its own payload;
    every other line is passed over, with a warning unless it is blank, and the number of commands
    is reported. If some line is no text, this is so of the lines before it, and the input ends
    there with an error. -/
theorem every_command_submitted {input : Bytes} {ls : List Bytes} {g g' : Group Replica}
    (hlines : LinesOf input ls) (taken : Submits node g (ls.filterMap command?) g') :
    ((∀ line ∈ ls, isText line = true) →
      run node input g = (⟨(ls.filterMap command?).length,
        ls.filterMap warning? ++ [ended (ls.filterMap command?).length], none⟩, g')) ∧
    (¬(∀ line ∈ ls, isText line = true) →
      ∃ g₁, Submits node g (commands ls) g₁ ∧
        run node input g = (⟨(commands ls).length, warnings ls, some .io⟩, g₁)) := by
  constructor
  · intro htext
    have hheard : heard ls = ls := List.takeWhile_eq_self_iff.2 htext
    have hcommands : commands ls = ls.filterMap command? := by rw [commands, hheard]
    have hrun := run_of_submits hlines (hcommands.symm ▸ taken)
    rwa [if_pos (List.all_eq_true.2 htext), commands, warnings, hheard] at hrun
  · intro htext
    have hcut : ls.filterMap command? = commands ls
        ++ (ls.dropWhile isText).filterMap command? := by
      rw [commands, heard, ← List.filterMap_append, List.takeWhile_append_dropWhile]
    rw [hcut] at taken
    obtain ⟨g₁, hheard, -⟩ := taken.of_append
    refine ⟨g₁, hheard, ?_⟩
    rw [run_of_submits hlines hheard, if_neg (fun hall => htext (List.all_eq_true.1 hall))]

/-- A node that is alone in its group. -/
def soleNode : Group Replica :=
  .start (Replica.routes []) ⟨⟨0⟩, 0⟩ (fun _ _ => false) .init [.ofConfig (groupConfig "a" 0 [])]

/-- Commands between lines that are none. -/
def mixedInput : Bytes := Bytes.ofText "DEPOSIT E 5\n\nPAY E 5\r\nTRANSFER E TO F 2"

theorem every_command_submitted_of_mixed :
    Submits "a" soleNode [.deposit "E" 5, .transfer "E" "F" 2] (run "a" mixedInput soleNode).2 ∧
      (run "a" mixedInput soleNode).1
        = ⟨2, [skipped (.command "PAY E 5" .unknownVerb), ended 2], none⟩ := by
  have hlines := (lines_eq_iff mixedInput _).1 rfl
  have htext : ∀ line ∈ lines mixedInput, isText line = true :=
    List.all_eq_true.1 (by decide +kernel : (lines mixedInput).all isText = true)
  have taken : Submits "a" soleNode [.deposit "E" 5, .transfer "E" "F" 2] _ :=
    .next rfl (.next rfl .done)
  have hcommands : (lines mixedInput).filterMap command?
      = [.deposit "E" 5, .transfer "E" "F" 2] := by decide +kernel
  have hwarnings : (lines mixedInput).filterMap warning?
      = [skipped (.command "PAY E 5" .unknownVerb)] := by decide +kernel
  rw [(every_command_submitted hlines (hcommands.symm ▸ taken)).1 htext, hcommands, hwarnings]
  exact ⟨taken, rfl⟩

/-- Nothing is submitted after a line that is no text, be it a command that the group takes. -/
theorem not_all_commands_submitted :
    ¬ ∀ (node : NodeId) (input : Bytes) (ls : List Bytes) (g g' : Group Replica),
      LinesOf input ls → Submits node g (ls.filterMap command?) g' →
        (run node input g).1.submitted = (ls.filterMap command?).length := by
  intro h
  have hlines : LinesOf ([0xFF, 0x0A] ++ Bytes.ofText "DEPOSIT E 5\n")
      [[0xFF], Bytes.ofText "DEPOSIT E 5"] := (lines_eq_iff ..).1 (by decide +kernel)
  have hcommands : [[0xFF], Bytes.ofText "DEPOSIT E 5"].filterMap command? = [.deposit "E" 5] := by
    decide +kernel
  have taken : Submits "a" soleNode [.deposit "E" 5] _ := .next rfl .done
  have hsubmitted := h "a" _ _ soleNode _ hlines (hcommands ▸ taken)
  rw [hcommands] at hsubmitted
  exact absurd hsubmitted (by decide +kernel)

end CommandInput

end AgreedOrder.Bank
