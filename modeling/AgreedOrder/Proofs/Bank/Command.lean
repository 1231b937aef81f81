/-
  AgreedOrder.Proofs.Bank.Command

  The grammar of commands, and its inverse. A line is a command where its
  fields are those of one of the two forms, with a numeral of 64 bits as the
  amount; an account may be any word, the words of the grammar included. A
  transaction between words is displayed as a command for it.

    * `Command.Means` — the forms, apart from how a line is read.
    * `Command.parse_eq_ok_iff` — the lines that are commands.
    * `Command.parse_display` — a displayed transaction is read back.
    * `command_grammar` — the grammar and its inverse.
-/

import AgreedOrder.Bank.Command
import AgreedOrder.Proofs.Text.Blank

namespace AgreedOrder.Bank

open Text

/-! ## Amounts -/

/-- A field is the amount that it is a numeral for. -/
def Command.IsAmount (field : String) (amount : Int64) : Prop :=
  Spells true field.toList amount.toInt

theorem Command.amount_eq_ok_iff (field : String) (n : Int64) :
    amount field = .ok n ↔ IsAmount field n := by
  have hread (m : Int) : numeral .i64 field.toList = .ok m ↔
      Spells true field.toList m ∧ Range.i64.low ≤ m ∧ m ≤ Range.i64.high :=
    numeral_eq_ok_iff (by decide) (by decide) field.toList m
  have hbounds : Range.i64.low ≤ n.toInt ∧ n.toInt ≤ Range.i64.high := ⟨n.le_toInt, n.toInt_le⟩
  unfold amount IsAmount
  constructor
  · intro h
    cases hm : numeral .i64 field.toList with
    | error e =>
      rw [hm] at h
      cases h
    | ok m =>
      rw [hm] at h
      obtain ⟨hspells, hlow, hhigh⟩ := (hread m).1 hm
      have hn : Int64.ofInt m = n := Except.ok.inj h
      rw [← hn, Int64.toInt_ofInt_of_le hlow (Int.lt_add_one_of_le hhigh)]
      exact hspells
  · intro h
    rw [(hread n.toInt).2 ⟨h, hbounds⟩]
    exact congrArg Except.ok (Int64.ofInt_toInt n)

/-! ## Forms -/

/-- The fields of a command, and the transaction that they stand for. -/
inductive Command.Means : List String → Transaction → Prop
  | deposit {account n : String} {amount : Int64} (number : IsAmount n amount) :
      Means ["DEPOSIT", account, n] (.deposit account amount)
  | transfer {source target n : String} {amount : Int64} (number : IsAmount n amount) :
      Means ["TRANSFER", source, "TO", target, n] (.transfer source target amount)

theorem Command.ofFields_eq_ok_iff (fields : List String) (t : Transaction) :
    ofFields fields = .ok t ↔ Means fields t := by
  constructor
  · intro h
    unfold ofFields at h
    split at h
    · cases h
    · rename_i account n
      cases hn : amount n with
      | error e => rw [hn] at h; cases h
      | ok m =>
        rw [hn] at h
        cases h
        exact .deposit ((amount_eq_ok_iff n m).1 hn)
    · cases h
    · rename_i source target n
      cases hn : amount n with
      | error e => rw [hn] at h; cases h
      | ok m =>
        rw [hn] at h
        cases h
        exact .transfer ((amount_eq_ok_iff n m).1 hn)
    · cases h
    · cases h
  · intro h
    cases h with
    | deposit number => simp [ofFields, (amount_eq_ok_iff _ _).2 number, Except.map]
    | transfer number => simp [ofFields, (amount_eq_ok_iff _ _).2 number, Except.map]

/-- The lines that are commands, and what they stand for. -/
theorem Command.parse_eq_ok_iff (line : String) (t : Transaction) :
    parse line = .ok t ↔ ∃ fields, FieldsOf line.toList fields ∧ Means fields t := by
  unfold parse
  rw [ofFields_eq_ok_iff]
  constructor
  · intro h
    exact ⟨_, fieldsOf_fields line, h⟩
  · rintro ⟨fields, hfields, h⟩
    rwa [(fields_eq_iff line fields).2 hfields]

/-! ## Displayed transactions -/

/-- The accounts of a transaction are words, as those of every command are. -/
def Transaction.BetweenWords : Transaction → Prop
  | .deposit account _ => IsWord account
  | .transfer source target _ => IsWord source ∧ IsWord target

theorem Command.betweenWords_of_parse {line : String} {t : Transaction}
    (h : parse line = .ok t) : t.BetweenWords := by
  obtain ⟨fields, hfields, hmeans⟩ := (parse_eq_ok_iff line t).1 h
  have hword := hfields.isWord
  cases hmeans with
  | deposit => exact hword _ (by simp)
  | transfer => exact ⟨hword _ (by simp), hword _ (by simp)⟩

theorem Command.isAmount_toString (n : Int64) : IsAmount (toString n.toInt) n :=
  spells_toString n.toInt

/-- The fields of a displayed transaction. -/
theorem Command.exists_fieldsOf_display {t : Transaction} (h : t.BetweenWords) :
    ∃ fields, FieldsOf t.display.toList fields ∧ Means fields t := by
  have hblank : isBlank ' ' = true := by decide
  have hlast (n : Int64) := (isAmount_toString n).isWord
  have hverb {w : String} (h : w = "DEPOSIT" ∨ w = "TRANSFER" ∨ w = "TO") : IsWord w := by
    rcases h with rfl | rfl | rfl <;> exact ⟨by decide, by simp [isBlank, blankRanges]⟩
  cases t with
  | deposit account amount =>
    refine ⟨_, ?_, .deposit (isAmount_toString amount)⟩
    have hlist : (Transaction.deposit account amount).display.toList = "DEPOSIT".toList
        ++ ' ' :: (account.toList ++ ' ' :: (toString amount.toInt).toList) := by
      simp [Transaction.display]
    rw [hlist]
    exact .word (hverb (by simp)) hblank (.word h hblank (.last (hlast amount)))
  | transfer source target amount =>
    refine ⟨_, ?_, .transfer (isAmount_toString amount)⟩
    have hlist : (Transaction.transfer source target amount).display.toList = "TRANSFER".toList
        ++ ' ' :: (source.toList ++ ' ' :: ("TO".toList ++ ' ' :: (target.toList
          ++ ' ' :: (toString amount.toInt).toList))) := by
      simp [Transaction.display]
    rw [hlist]
    exact .word (hverb (by simp)) hblank (.word h.1 hblank
      (.word (hverb (by simp)) hblank (.word h.2 hblank (.last (hlast amount)))))

/-- A transaction between words is read back from what it is displayed as. -/
theorem Command.parse_display {t : Transaction} (h : t.BetweenWords) :
    parse t.display = .ok t :=
  (parse_eq_ok_iff t.display t).2 (exists_fieldsOf_display h)

/-- A line is a command exactly where its words are those of one of the two forms, and is then the
    transaction of that form. Its accounts are words. A transaction between words is read back
    from what it is displayed as, so a line that is read, displayed and read again comes to what
    it came to at first, a fault included. -/
theorem command_grammar :
    (∀ line t, Command.parse line = .ok t ↔
      ∃ fields, FieldsOf line.toList fields ∧ Command.Means fields t) ∧
    (∀ line t, Command.parse line = .ok t → t.BetweenWords) ∧
    (∀ t : Transaction, t.BetweenWords → Command.parse t.display = .ok t) ∧
    ∀ line, ((Command.parse line).bind fun t => Command.parse t.display) = Command.parse line := by
  refine ⟨Command.parse_eq_ok_iff, fun _ _ => Command.betweenWords_of_parse,
    fun _ => Command.parse_display, ?_⟩
  intro line
  cases h : Command.parse line with
  | error f => rfl
  | ok t => exact Command.parse_display (Command.betweenWords_of_parse h)

example : Command.parse "\u3000TRANSFER TO TO TRANSFER\t+007 "
    = .ok (.transfer "TO" "TRANSFER" 7) := by
  decide +kernel

end AgreedOrder.Bank
