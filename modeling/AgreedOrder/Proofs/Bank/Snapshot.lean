/-
  AgreedOrder.Proofs.Bank.Snapshot

  The line of all balances tells which ledger it was written for, as long as
  the accounts are words, which those of typed commands are. A row ends with a
  number, in which there is no colon, so its last colon ends the account even
  if the account holds colons itself; and rows hold no blanks, so the line is
  cut where they were put together.

    * `Ledger.row_injective` — a row tells the account and the balance.
    * `Ledger.BetweenWords.fields_snapshotLine` — the line is cut into its rows.
    * `Ledger.betweenWords_replay` — the accounts of typed commands are words.
    * `snapshot_tells_ledger` — equal lines are those of equal ledgers.
-/

import AgreedOrder.Proofs.Bank.Command
import AgreedOrder.Proofs.Bank.Conservation
import AgreedOrder.Proofs.Text.Utf8Order

namespace AgreedOrder

/-- There are only digits and a sign in a numeral. -/
theorem Text.Spells.not_colon {signed : Bool} {cs : List Char} {m : Int}
    (h : Spells signed cs m) : ':' ∉ cs := by
  have hdigits {ds : List Char} (hds : IsDigits ds) : ':' ∉ ds := fun hmem =>
    absurd (hds.isDigit ':' hmem) (by decide)
  cases h with
  | plain hds => exact hdigits hds
  | plus hds => exact List.not_mem_cons_of_ne_of_not_mem (by decide) (hdigits hds)
  | minus hds _ => exact List.not_mem_cons_of_ne_of_not_mem (by decide) (hdigits hds)

/-- Words with a blank before each but the first are cut into these words. -/
theorem Text.fieldsOf_spaced {w : String} {ws : List String} (hw : IsWord w)
    (hws : ∀ v ∈ ws, IsWord v) :
    FieldsOf (w.toList ++ ws.flatMap fun v => ' ' :: v.toList) (w :: ws) := by
  induction ws generalizing w with
  | nil =>
    rw [List.flatMap_nil, List.append_nil]
    exact .last hw
  | cons v ws ih =>
    obtain ⟨hv, hws⟩ := List.forall_mem_cons.1 hws
    rw [List.flatMap_cons]
    exact .word hw (by decide) (ih hv hws)

namespace Bank

open Text

namespace Ledger

variable {l l' : Ledger} {t : Transaction}

/-! ## Rows -/

/-- An account with its balance, as it stands in the line of all balances. -/
def row (e : Account × Int64) : String := e.1 ++ ":" ++ toString e.2.toInt

theorem toList_row (e : Account × Int64) :
    (row e).toList = e.1.toList ++ ':' :: (toString e.2.toInt).toList := by
  simp [row]

theorem spells_balance (n : Int64) : Spells true (toString n.toInt).toList n.toInt :=
  spells_toString n.toInt

/-- What stands before the last mark and after it is told by the whole. -/
theorem append_cons_inj_of_not_mem {α : Type} {a : α} {xs ys zs ws : List α} (hys : a ∉ ys)
    (hws : a ∉ ws) (h : xs ++ a :: ys = zs ++ a :: ws) : xs = zs ∧ ys = ws := by
  rcases List.append_eq_append_iff.1 h with ⟨mid, rfl, hmid⟩ | ⟨mid, rfl, hmid⟩
  · cases mid with
    | nil => exact ⟨(List.append_nil xs).symm, (List.cons.inj hmid).2⟩
    | cons b mid =>
      obtain ⟨rfl, rfl⟩ := List.cons.inj hmid
      exact absurd (List.mem_append_right mid List.mem_cons_self) hys
  · cases mid with
    | nil => exact ⟨List.append_nil zs, (List.cons.inj hmid).2.symm⟩
    | cons b mid =>
      obtain ⟨rfl, rfl⟩ := List.cons.inj hmid
      exact absurd (List.mem_append_right mid List.mem_cons_self) hws

/-- A row tells the account and the balance, whatever the account is called. -/
theorem row_injective : Function.Injective row := by
  rintro ⟨a, n⟩ ⟨b, m⟩ h
  have hlists := congrArg String.toList h
  rw [toList_row, toList_row] at hlists
  obtain ⟨haccount, hbalance⟩ := append_cons_inj_of_not_mem (spells_balance n).not_colon
    (spells_balance m).not_colon hlists
  -- The same numeral is read as one balance only.
  have hn := (Command.amount_eq_ok_iff _ n).2 (Command.isAmount_toString n)
  rw [String.toList_inj.1 hbalance, (Command.amount_eq_ok_iff _ m).2 (Command.isAmount_toString m)]
    at hn
  exact Prod.ext (String.toList_inj.1 haccount) (Except.ok.inj hn).symm

theorem isWord_row {e : Account × Int64} (h : IsWord e.1) : IsWord (row e) := by
  rw [← String.ofList_toList (s := row e), toList_row]
  refine isWord_ofList (by simp) fun c hc => ?_
  rcases List.mem_append.1 hc with hc | hc
  · exact h.not_isBlank c hc
  · rcases List.mem_cons.1 hc with rfl | hc
    · decide
    · exact (spells_balance e.2).isWord.not_isBlank c hc

/-! ## The line -/

theorem toList_snapshotLine (l : Ledger) : l.snapshotLine.toList = "BALANCES".toList
    ++ (l.balances.entries.map row).flatMap fun r => ' ' :: r.toList := by
  have hfold : ∀ (es : List (Account × Int64)) (line : String),
      (es.foldl (fun line e => line ++ " " ++ e.1 ++ ":" ++ toString e.2.toInt) line).toList
        = line.toList ++ (es.map row).flatMap fun r => ' ' :: r.toList := by
    intro es
    induction es with
    | nil => exact fun line => (List.append_nil _).symm
    | cons e es ih =>
      intro line
      rw [List.foldl_cons, ih, List.map_cons, List.flatMap_cons, toList_row]
      simp
  exact hfold ..

/-- Every account is called by a word. -/
def BetweenWords (l : Ledger) : Prop := ∀ a, (l.balance? a).isSome → IsWord a

/-- The line is cut into its rows. -/
theorem BetweenWords.fields_snapshotLine (h : l.BetweenWords) :
    fields l.snapshotLine = "BALANCES" :: l.balances.entries.map row := by
  have hfirst : IsWord "BALANCES" := ⟨by decide, by simp [isBlank, blankRanges]⟩
  rw [fields_eq_iff, toList_snapshotLine]
  refine fieldsOf_spaced hfirst fun r hr => ?_
  obtain ⟨⟨a, n⟩, he, rfl⟩ := List.mem_map.1 hr
  refine isWord_row (h a ?_)
  unfold balance?
  rw [(l.balances.mem_entries_iff a n).1 he]
  rfl

/-- Ledgers whose accounts are words have the same line only if they are the same. -/
theorem BetweenWords.eq_of_snapshotLine_eq (h : l.BetweenWords) (h' : l'.BetweenWords)
    (heq : l.snapshotLine = l'.snapshotLine) : l = l' := by
  have hfields := congrArg fields heq
  rw [h.fields_snapshotLine, h'.fields_snapshotLine] at hfields
  have hentries := List.map_injective_iff.2 row_injective (List.cons.inj hfields).2
  obtain ⟨⟨entries, increasing⟩⟩ := l
  obtain ⟨⟨entries', increasing'⟩⟩ := l'
  cases hentries
  rfl

/-! ## Accounts of typed commands -/

theorem BetweenWords.set (h : l.BetweenWords) {account : Account} (hword : IsWord account)
    (n : Int64) : (l.set account n).BetweenWords := by
  intro a ha
  rw [balance?_set] at ha
  split at ha
  · rename_i heq
    exact heq ▸ hword
  · exact h a ha

theorem BetweenWords.carry (h : l.BetweenWords) (ht : t.BetweenWords) :
    (l.carry t).BetweenWords := by
  unfold Ledger.carry
  cases happly : l.apply t with
  | error e => exact h
  | ok l' =>
    cases accepted_of_apply happly with
    | deposit => exact h.set ht _
    | toSelf => exact h
    | transfer => exact (h.set ht.1 _).set ht.2 _

theorem betweenWords_replay {ts : List Transaction} (h : ∀ t ∈ ts, t.BetweenWords) :
    (replay ts).BetweenWords := by
  have hfold : ∀ l : Ledger, l.BetweenWords → (ts.foldl carry l).BetweenWords := by
    induction ts with
    | nil => exact fun _ hl => hl
    | cons t ts ih =>
      obtain ⟨ht, hts⟩ := List.forall_mem_cons.1 h
      exact fun l hl => ih hts _ (hl.carry ht)
  exact hfold ∅ nofun

end Ledger

/-- The transactions of the lines that are commands, in the order of the lines. -/
def commands (lines : List String) : List Transaction :=
  lines.filterMap fun line => (Command.parse line).toOption

theorem betweenWords_of_mem_commands {lines : List String} {t : Transaction}
    (h : t ∈ commands lines) : t.BetweenWords := by
  obtain ⟨line, -, hline⟩ := List.mem_filterMap.1 h
  cases hparse : Command.parse line with
  | error e =>
    rw [hparse] at hline
    cases hline
  | ok t' =>
    rw [hparse] at hline
    cases hline
    exact Command.betweenWords_of_parse hparse

/-- Two ledgers that came about by typed commands, whether these were accepted or refused, have the
    same line of all balances exactly where they are the same. The line of such a ledger is cut at
    its blanks into a row for each account with its balance, each once, in increasing order of the
    UTF-8 bytes of the accounts. -/
theorem snapshot_tells_ledger (typed : List String) :
    (∀ others : List String, (Ledger.replay (commands typed)).snapshotLine
        = (Ledger.replay (commands others)).snapshotLine ↔
      Ledger.replay (commands typed) = Ledger.replay (commands others)) ∧
    ∃ rows : List (Account × Int64),
      fields (Ledger.replay (commands typed)).snapshotLine
        = "BALANCES" :: rows.map (fun e => e.1 ++ ":" ++ toString e.2.toInt) ∧
      rows.Pairwise (fun a b => Bytes.ofText a.1 < Bytes.ofText b.1) ∧
      ∀ a n, (a, n) ∈ rows ↔ (Ledger.replay (commands typed)).balance? a = some n := by
  have hwords (lines : List String) : (Ledger.replay (commands lines)).BetweenWords :=
    Ledger.betweenWords_replay fun t => betweenWords_of_mem_commands
  refine ⟨fun others => ⟨(hwords typed).eq_of_snapshotLine_eq (hwords others), ?_⟩,
    (Ledger.replay (commands typed)).balances.entries, (hwords typed).fields_snapshotLine, ?_, ?_⟩
  · exact congrArg Ledger.snapshotLine
  · refine (Ledger.replay (commands typed)).balances.increasing.imp fun {a b} hab => ?_
    exact Bytes.ofText_lt_ofText (compareOfLessAndEq_eq_lt.1 hab)
  · exact fun a n => SortedMap.mem_entries_iff _ a n

example : (Ledger.replay (commands ["DEPOSIT b:1 2", "DEPOSIT é 3", "DEPOSIT b 0", "no command",
    "TRANSFER b TO c 1"])).snapshotLine = "BALANCES b:0 b:1:2 é:3" := by
  decide +kernel

end Bank

end AgreedOrder
