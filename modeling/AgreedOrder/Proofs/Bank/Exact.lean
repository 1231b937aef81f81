/-
  AgreedOrder.Proofs.Bank.Exact

  The ledger computes with amounts of 64 bits. What it answers, and what it
  holds afterwards, is what exact integers give with one bound, the largest
  amount; that holds of every ledger a run of transactions leads to, since none
  of its balances is negative.

    * `Exact.Balances.deposit`, `Exact.Balances.transfer` — with exact integers.
    * `Ledger.checkedAdd?`, `Ledger.checkedSub?` — the operations of the machine.
    * `Ledger.Sound.exact_deposit`, `Ledger.Sound.exact_transfer` — one operation.
    * `exact_replay` — any number of transactions.
    * `ledger_exact` — both operations, on every ledger that can be reached.
-/

import AgreedOrder.Proofs.Bank.Conservation
import Mathlib.Logic.Function.Basic

namespace AgreedOrder.Bank

/-! ## Exact integers -/

namespace Exact

/-- The largest amount. -/
def limit : Int := 9223372036854775807

/-- What each account holds, if it exists. -/
abbrev Balances : Type := Account → Option Int

/-- Why a transaction is refused. -/
inductive Refusal
  | negativeAmount (amount : Int)
  | unknownAccount (account : Account)
  | insufficientFunds (account : Account) (balance amount : Int)
  | overflow (account : Account)
  deriving DecidableEq

namespace Balances

/-- Put money into an account. Gives its new balance. -/
def deposit (b : Balances) (account : Account) (amount : Int) : Except Refusal (Int × Balances) :=
  let sum := (b account).getD 0 + amount
  if amount < 0 then .error (.negativeAmount amount)
  else if limit < sum then .error (.overflow account)
  else .ok (sum, Function.update b account (some sum))

/-- Move money between accounts. -/
def transfer (b : Balances) (source target : Account) (amount : Int) : Except Refusal Balances :=
  if amount < 0 then .error (.negativeAmount amount)
  else
    match b source with
    | none => .error (.unknownAccount source)
    | some balance =>
      let sum := (b target).getD 0 + amount
      if balance < amount then .error (.insufficientFunds source balance amount)
      else if source = target then .ok b
      else if limit < sum then .error (.overflow target)
      else .ok (Function.update (Function.update b source (some (balance - amount)))
        target (some sum))

/-- Carry out a transaction. One that is refused changes nothing. -/
def carry (b : Balances) : Transaction → Balances
  | .deposit account amount =>
    match b.deposit account amount.toInt with
    | .ok (_, b) => b
    | .error _ => b
  | .transfer source target amount =>
    match b.transfer source target amount.toInt with
    | .ok b => b
    | .error _ => b

/-- Carry out transactions one after the other. -/
def replay (ts : List Transaction) : Balances := ts.foldl carry fun _ => none

end Balances

end Exact

open Exact

/-- A refusal with exact numbers. -/
def LedgerError.exact : LedgerError → Refusal
  | .negativeAmount amount => .negativeAmount amount.toInt
  | .unknownAccount account => .unknownAccount account
  | .insufficientFunds account balance amount =>
    .insufficientFunds account balance.toInt amount.toInt
  | .overflow account => .overflow account

/-- What each account holds, as an exact number. -/
def Ledger.exact (l : Ledger) : Balances := fun account => (l.balance? account).map Int64.toInt

/-- What became of a deposit, with exact numbers. -/
def Exact.ofDeposit : Except LedgerError (Int64 × Ledger) → Except Refusal (Int × Balances)
  | .ok (sum, l) => .ok (sum.toInt, l.exact)
  | .error e => .error e.exact

/-- What became of a transfer, with exact numbers. -/
def Exact.ofTransfer : Except LedgerError Ledger → Except Refusal Balances
  | .ok l => .ok l.exact
  | .error e => .error e.exact

namespace Ledger

/-! ## Checked operations -/

/-- The sum of two amounts in 64 bits, unless it overflows. -/
def checkedAdd? (a b : Int64) : Option Int64 :=
  if BitVec.saddOverflow a.toBitVec b.toBitVec then none else some (a + b)

/-- The difference of two amounts in 64 bits, unless it overflows. -/
def checkedSub? (a b : Int64) : Option Int64 :=
  if BitVec.ssubOverflow a.toBitVec b.toBitVec then none else some (a - b)

variable {l : Ledger} {a b amount balance : Int64}

theorem not_saddOverflow_iff :
    BitVec.saddOverflow a.toBitVec b.toBitVec = false ↔
      -9223372036854775808 ≤ a.toInt + b.toInt ∧ a.toInt + b.toInt ≤ 9223372036854775807 := by
  unfold BitVec.saddOverflow
  simp only [Int64.toInt_toBitVec, Bool.or_eq_false_iff, decide_eq_false_iff_not]
  omega

theorem not_ssubOverflow_iff :
    BitVec.ssubOverflow a.toBitVec b.toBitVec = false ↔
      -9223372036854775808 ≤ a.toInt - b.toInt ∧ a.toInt - b.toInt ≤ 9223372036854775807 := by
  unfold BitVec.ssubOverflow
  simp only [Int64.toInt_toBitVec, Bool.or_eq_false_iff, decide_eq_false_iff_not]
  omega

/-- The program's sum of two amounts is the machine's. -/
theorem add?_eq_checkedAdd? (a b : Int64) : add? a b = checkedAdd? a b := by
  unfold add? checkedAdd?
  dsimp only
  rw [Int64.toInt_minValue, Int64.toInt_maxValue, Int64.ofInt_add, Int64.ofInt_toInt,
    Int64.ofInt_toInt]
  cases hover : BitVec.saddOverflow a.toBitVec b.toBitVec with
  | false => exact if_pos (not_saddOverflow_iff.1 hover)
  | true =>
    refine if_neg fun hrange => ?_
    rw [not_saddOverflow_iff.2 hrange] at hover
    cases hover

/-- What is left of a balance is the machine's difference, where it is not negative. -/
theorem take?_eq_filter_checkedSub? (balance amount : Int64) :
    take? balance amount = (checkedSub? balance amount).filter (0 ≤ ·) := by
  unfold take? checkedSub?
  dsimp only
  rw [Int64.toInt_maxValue, Int64.ofInt_sub, Int64.ofInt_toInt, Int64.ofInt_toInt]
  cases hover : BitVec.ssubOverflow balance.toBitVec amount.toBitVec with
  | false =>
    obtain ⟨hlow, hhigh⟩ := not_ssubOverflow_iff.1 hover
    have hexact : (balance - amount).toInt = balance.toInt - amount.toInt := by
      rw [← Int64.ofInt_toInt balance, ← Int64.ofInt_toInt amount, ← Int64.ofInt_sub,
        Int64.toInt_ofInt_of_le hlow (by omega), Int64.ofInt_toInt, Int64.ofInt_toInt]
    have hsign : 0 ≤ balance - amount ↔ 0 ≤ balance.toInt - amount.toInt := by
      rw [Int64.le_iff_toInt_le, hexact, Int64.toInt_zero]
    rw [if_neg Bool.false_ne_true, Option.filter_some]
    simp only [decide_eq_true_eq, hsign]
    by_cases hrest : 0 ≤ balance.toInt - amount.toInt
    · rw [if_pos ⟨hrest, hhigh⟩, if_pos hrest]
    · rw [if_neg fun hrange => hrest hrange.1, if_neg hrest]
  | true =>
    refine if_neg fun hrange => ?_
    rw [not_ssubOverflow_iff.2 ⟨by omega, hrange.2⟩] at hover
    cases hover

/-- No amount that is not negative is too far from a balance that is not. -/
theorem checkedSub?_of_nonneg (hbalance : 0 ≤ balance.toInt) (hamount : 0 ≤ amount.toInt) :
    checkedSub? balance amount = some (balance - amount) := by
  have hhigh := balance.toInt_lt
  have hlow := amount.toInt_lt
  exact if_neg (by rw [not_ssubOverflow_iff.2 (by omega)]; decide)

/-! ## One operation -/

theorem exact_set (l : Ledger) (account : Account) (a : Int64) :
    (l.set account a).exact = Function.update l.exact account (some a.toInt) := by
  funext other
  rw [Function.update_apply]
  unfold exact
  rw [balance?_set]
  split <;> rfl

theorem exact_getD (l : Ledger) (account : Account) :
    (l.exact account).getD 0 = ((l.balance? account).getD 0).toInt :=
  (toInt_getD_balance? l account).symm

theorem lt_zero_iff : amount < 0 ↔ amount.toInt < 0 := by
  rw [Int64.lt_iff_toInt_lt, Int64.toInt_zero]

/-- The sum of amounts that are not negative is refused only above the limit. -/
theorem add?_cases (ha : 0 ≤ a.toInt) (hb : 0 ≤ b.toInt) :
    (∃ sum, add? a b = some sum ∧ sum.toInt = a.toInt + b.toInt ∧ a.toInt + b.toInt ≤ limit) ∨
      (add? a b = none ∧ limit < a.toInt + b.toInt) := by
  cases hsum : add? a b with
  | some sum =>
    refine .inl ⟨sum, rfl, toInt_of_add? hsum, ?_⟩
    rw [← toInt_of_add? hsum]
    exact Int.le_sub_one_of_lt sum.toInt_lt
  | none =>
    refine .inr ⟨rfl, Int.not_le.1 fun hle => ?_⟩
    unfold add? at hsum
    rw [if_pos ⟨by rw [Int64.toInt_minValue]; omega, by rw [Int64.toInt_maxValue]; exact hle⟩]
      at hsum
    cases hsum

/-- An amount that is not negative is refused only if the balance does not cover it. -/
theorem take?_cases (hamount : 0 ≤ amount.toInt) :
    (∃ rest, take? balance amount = some rest ∧ rest.toInt = balance.toInt - amount.toInt ∧
      amount.toInt ≤ balance.toInt) ∨
      (take? balance amount = none ∧ balance.toInt < amount.toInt) := by
  cases hrest : take? balance amount with
  | some rest =>
    obtain ⟨hleft, hcovered⟩ := toInt_of_take? hrest
    exact .inl ⟨rest, rfl, hleft, by omega⟩
  | none =>
    refine .inr ⟨rfl, Int.not_le.1 fun hle => ?_⟩
    have hhigh := balance.toInt_lt
    unfold take? at hrest
    rw [if_pos ⟨by omega, by rw [Int64.toInt_maxValue]; omega⟩] at hrest
    cases hrest

theorem Sound.nonneg_getD (h : l.Sound) (account : Account) :
    0 ≤ ((l.balance? account).getD 0).toInt := by
  rw [toInt_getD_balance?]
  exact h account

theorem Sound.exact_deposit (h : l.Sound) (account : Account) (amount : Int64) :
    Exact.ofDeposit (l.deposit account amount) = l.exact.deposit account amount.toInt := by
  unfold deposit Balances.deposit
  dsimp only
  by_cases hneg : amount < 0
  · rw [if_pos hneg, if_pos (lt_zero_iff.1 hneg)]
    rfl
  rw [if_neg hneg, if_neg (mt lt_zero_iff.2 hneg), exact_getD]
  rcases add?_cases (h.nonneg_getD account) (nonneg_of_not_lt hneg) with
    ⟨sum, hsum, hvalue, hle⟩ | ⟨hnone, hlt⟩
  · rw [hsum, if_neg (Int.not_lt.2 hle), ← hvalue, ← exact_set]
    rfl
  · rw [hnone, if_pos hlt]
    rfl

theorem Sound.exact_transfer (h : l.Sound) (source target : Account) (amount : Int64) :
    Exact.ofTransfer (l.transfer source target amount)
      = l.exact.transfer source target amount.toInt := by
  unfold transfer Balances.transfer
  dsimp only
  by_cases hneg : amount < 0
  · rw [if_pos hneg, if_pos (lt_zero_iff.1 hneg)]
    rfl
  rw [if_neg hneg, if_neg (mt lt_zero_iff.2 hneg), exact_getD]
  have hsource : l.exact source = (l.balance? source).map Int64.toInt := rfl
  rw [hsource]
  cases l.balance? source with
  | none => rfl
  | some balance =>
    dsimp only [Option.map_some]
    rcases take?_cases (nonneg_of_not_lt hneg) with ⟨rest, hrest, hleft, hcovered⟩ | ⟨hnone, hlt⟩
    · rw [hrest, if_neg (Int.not_lt.2 hcovered)]
      dsimp only
      by_cases hself : source = target
      · rw [if_pos hself, if_pos hself]
        rfl
      rw [if_neg hself, if_neg hself]
      rcases add?_cases (h.nonneg_getD target) (nonneg_of_not_lt hneg) with
        ⟨sum, hsum, hvalue, hle⟩ | ⟨hnone, hlt⟩
      · rw [hsum, if_neg (Int.not_lt.2 hle), ← hvalue, ← hleft, ← exact_set, ← exact_set]
        rfl
      · rw [hnone, if_pos hlt]
        rfl
    · rw [hnone, if_pos hlt]
      rfl

/-! ## Any number of transactions -/

theorem Sound.carry (h : l.Sound) (t : Transaction) : (l.carry t).Sound := by
  unfold Ledger.carry
  cases happly : l.apply t with
  | ok l' => exact h.accepted (accepted_of_apply happly)
  | error e => exact h

theorem Sound.exact_carry (h : l.Sound) (t : Transaction) :
    (l.carry t).exact = l.exact.carry t := by
  unfold Ledger.carry Balances.carry
  cases t with
  | deposit account amount =>
    have happly : l.apply (.deposit account amount) = (l.deposit account amount).map (·.2) := rfl
    dsimp only
    rw [happly, ← h.exact_deposit]
    cases l.deposit account amount <;> rfl
  | transfer source target amount =>
    have happly : l.apply (.transfer source target amount) = l.transfer source target amount := rfl
    dsimp only
    rw [happly, ← h.exact_transfer]
    cases l.transfer source target amount <;> rfl

theorem sound_foldl_carry (h : l.Sound) (ts : List Transaction) :
    (ts.foldl Ledger.carry l).Sound := by
  induction ts generalizing l with
  | nil => exact h
  | cons t ts ih => exact ih (h.carry t)

theorem exact_foldl_carry (h : l.Sound) (ts : List Transaction) :
    (ts.foldl Ledger.carry l).exact = ts.foldl Balances.carry l.exact := by
  induction ts generalizing l with
  | nil => rfl
  | cons t ts ih => rw [List.foldl_cons, ih (h.carry t), h.exact_carry, List.foldl_cons]

/-- Any run of transactions leads to the balances that exact integers give. -/
theorem exact_replay (ts : List Transaction) : (replay ts).exact = Balances.replay ts :=
  exact_foldl_carry sound_empty ts

end Ledger

/-- On every ledger that transactions lead to, a deposit and a transfer of any amount come to what
    exact integers give: the same refusal, or the same balances. The machine's subtraction does
    not overflow there, so a transfer is refused for want of funds only where the difference is
    negative. -/
theorem ledger_exact (ts : List Transaction) (amount : Int64) :
    let l := Ledger.replay ts
    l.exact = Balances.replay ts ∧
    (∀ account,
      Exact.ofDeposit (l.deposit account amount) = l.exact.deposit account amount.toInt) ∧
    (∀ source target,
      Exact.ofTransfer (l.transfer source target amount)
        = l.exact.transfer source target amount.toInt) ∧
    ∀ source balance, l.balance? source = some balance → 0 ≤ amount →
      Ledger.checkedSub? balance amount = some (balance - amount) ∧
      Ledger.take? balance amount = (some (balance - amount)).filter (0 ≤ ·) := by
  have hsound : (Ledger.replay ts).Sound := Ledger.sound_foldl_carry Ledger.sound_empty ts
  refine ⟨Ledger.exact_replay ts, fun account => hsound.exact_deposit account amount,
    fun source target => hsound.exact_transfer source target amount,
    fun source balance hbalance hamount => ?_⟩
  have hheld : 0 ≤ balance.toInt := by
    have hworth := hsound.nonneg_getD source
    rwa [hbalance, Option.getD_some] at hworth
  have hsub := Ledger.checkedSub?_of_nonneg hheld (Int64.le_iff_toInt_le.1 hamount)
  refine ⟨hsub, ?_⟩
  rw [Ledger.take?_eq_filter_checkedSub?, hsub]

-- Whoever holds all there can be may send it to himself.
example : ((Ledger.replay [.deposit "a" Int64.maxValue]).transfer "a" "a" Int64.maxValue).isOk := by
  decide +kernel

end AgreedOrder.Bank
