/-
  AgreedOrder.Proofs.Bank.Conservation

  The ledger neither makes nor loses money. What the balances sum up to is what
  the accepted deposits brought in, no balance is negative, and accounts do not
  go away. A transaction is also carried out in place, statement by statement,
  where a refusal does not take back what was written before it; nothing was.

    * `InPlace.perform`, `InPlace.run` — a ledger as it is written to.
    * `InPlace.perform_statements` — in place, a transaction is the same.
    * `Ledger.Accepted` — what an accepted transaction does.
    * `total_accepted`, `total_run` — what the balances sum up to.
    * `books_balance` — any number of transactions.
-/

import AgreedOrder.Proofs.Bank.Replaying
import Mathlib.Algebra.Ring.Int.Defs

namespace AgreedOrder

/-! ## Sums of values -/

namespace SortedMap

variable {κ ν : Type} [Ord κ]

theorem sum_insertEntry [Std.TransOrd κ] [Std.LawfulEqOrd κ] (f : ν → Int) (k : κ) (v : ν)
    {l : List (κ × ν)} (h : l.Pairwise (fun a b => compare a.1 b.1 = .lt)) :
    ((insertEntry k v l).map fun e => f e.2).sum + ((findEntry k l).map f).getD 0
      = (l.map fun e => f e.2).sum + f v := by
  induction l with
  | nil => rw [insertEntry, findEntry, List.map_singleton, List.map_nil, List.sum_singleton,
      List.sum_nil, Int.zero_add, Option.map_none, Option.getD_none, Int.add_zero]
  | cons e tl ih =>
    obtain ⟨k', v'⟩ := e
    obtain ⟨hhd, htl⟩ := List.pairwise_cons.1 h
    rw [insertEntry, findEntry]
    split <;> rename_i hc
    · -- The key is below all others, so nothing stood under it.
      have hnone : findEntry k tl = none :=
        findEntry_eq_none_of_lt fun d hd => Std.TransCmp.lt_trans hc (hhd d hd)
      rw [if_neg (by rw [hc]; decide), hnone]
      simp only [List.map_cons, List.sum_cons, Option.map_none, Option.getD_none]
      omega
    · rw [if_pos hc]
      simp only [List.map_cons, List.sum_cons, Option.map_some, Option.getD_some]
      omega
    · rw [if_neg (by rw [hc]; decide)]
      simp only [List.map_cons, List.sum_cons]
      have := ih htl
      omega

/-- Putting a value under a key adds it to the sum of all values and takes away what stood there. -/
theorem sum_insert [Std.TransOrd κ] [Std.LawfulEqOrd κ] (f : ν → Int) (m : SortedMap κ ν) (k : κ)
    (v : ν) : ((m.insert k v).values.map f).sum + ((m.get? k).map f).getD 0
      = (m.values.map f).sum + f v := by
  unfold values
  rw [List.map_map, List.map_map]
  exact sum_insertEntry f k v m.increasing

end SortedMap

namespace Bank

/-! ## In place -/

namespace InPlace

/-- Statements that write to a ledger and can be refused. What was written before the refusal stays
    written. -/
abbrev Statements (α : Type) : Type := ExceptT LedgerError (StateM Ledger) α

/-- Go on with a result, if there is one. -/
def orRefuse {α : Type} (result : Option α) (e : LedgerError) : Statements α :=
  match result with
  | some a => pure a
  | none => throw e

/-- Refuse an amount below zero. -/
def refuseNegative (amount : Int64) : Statements Unit :=
  if amount < 0 then throw (.negativeAmount amount) else pure ()

/-- The balance of an account as it is now. -/
def balance? (account : Account) : Statements (Option Int64) := do
  return (← get).balance? account

/-- Write the balance of an account. -/
def write (account : Account) (amount : Int64) : Statements Unit :=
  modify fun l => l.set account amount

/-- Put money into an account. -/
def deposit (account : Account) (amount : Int64) : Statements Int64 := do
  refuseNegative amount
  let current ← balance? account
  let sum ← orRefuse (Ledger.add? (current.getD 0) amount) (.overflow account)
  write account sum
  return sum

/-- Move money between accounts. -/
def transfer (source target : Account) (amount : Int64) : Statements Unit := do
  refuseNegative amount
  let balance ← orRefuse (← balance? source) (.unknownAccount source)
  let rest ← orRefuse (Ledger.take? balance amount) (.insufficientFunds source balance amount)
  if source = target then return ()
  let sum ← orRefuse (Ledger.add? ((← balance? target).getD 0) amount) (.overflow target)
  write source rest
  write target sum

/-- The statements of a transaction. -/
def statements : Transaction → Statements Unit
  | .deposit account amount => do
    let _ ← deposit account amount
  | .transfer source target amount => transfer source target amount

/-- Let statements write to a ledger. Gives what became of them and the ledger that is left. -/
def perform {α : Type} (s : Statements α) (l : Ledger) : Except LedgerError α × Ledger :=
  s.run.run l

/-- A transaction with what became of it. -/
abbrev Entry : Type := Transaction × Except LedgerError Unit

/-- Carry out transactions one after the other. Gives what became of each of them and the ledger
    that is left. -/
def run (l : Ledger) : List Transaction → List Entry × Ledger
  | [] => ([], l)
  | t :: ts =>
    let (outcome, l) := perform (statements t) l
    let (entries, l) := run l ts
    ((t, outcome) :: entries, l)

/-- The amount of a deposit that was accepted. -/
def acceptedDeposit? : Entry → Option Int64
  | (.deposit _ amount, .ok ()) => some amount
  | _ => none

section Perform

variable {α β : Type} (l : Ledger)

theorem perform_bind (s : Statements α) (next : α → Statements β) :
    perform (s >>= next) l =
      match perform s l with
      | (.ok a, l) => perform (next a) l
      | (.error e, l) => (.error e, l) := by
  show (match s.run.run l with | (r, l) => (ExceptT.bindCont next r).run l) = _
  unfold perform
  rcases s.run.run l with ⟨_ | a, l'⟩
  · rfl
  · rfl

@[simp] theorem perform_pure (a : α) : perform (pure a) l = (.ok a, l) := rfl

@[simp] theorem perform_throw (e : LedgerError) :
    perform (throw e : Statements α) l = (.error e, l) := rfl

@[simp] theorem perform_balance? (account : Account) :
    perform (balance? account) l = (.ok (l.balance? account), l) := rfl

@[simp] theorem perform_write (account : Account) (amount : Int64) :
    perform (write account amount) l = (.ok (), l.set account amount) := rfl

theorem perform_orRefuse (result : Option α) (e : LedgerError) :
    perform (orRefuse result e) l
      = ((match result with | some a => .ok a | none => .error e), l) := by
  cases result <;> rfl

theorem perform_refuseNegative (amount : Int64) :
    perform (refuseNegative amount) l =
      (if amount < 0 then .error (.negativeAmount amount) else .ok (), l) := by
  unfold refuseNegative
  split <;> rfl

/-- A deposit in place writes once, when nothing can refuse it any more. -/
theorem perform_deposit (account : Account) (amount : Int64) :
    perform (deposit account amount) l =
      match l.deposit account amount with
      | .ok (sum, l') => (.ok sum, l')
      | .error e => (.error e, l) := by
  unfold deposit Ledger.deposit
  rw [perform_bind, perform_refuseNegative]
  by_cases hneg : amount < 0
  · rw [if_pos hneg, if_pos hneg]
  rw [if_neg hneg, if_neg hneg]
  simp only [perform_bind, perform_balance?, perform_orRefuse]
  cases Ledger.add? ((l.balance? account).getD 0) amount with
  | none => rfl
  | some sum => simp only [perform_write, perform_pure]

/-- A transfer in place writes twice, when nothing can refuse it any more. -/
theorem perform_transfer (source target : Account) (amount : Int64) :
    perform (transfer source target amount) l =
      match l.transfer source target amount with
      | .ok l' => (.ok (), l')
      | .error e => (.error e, l) := by
  unfold transfer Ledger.transfer
  rw [perform_bind, perform_refuseNegative]
  by_cases hneg : amount < 0
  · rw [if_pos hneg, if_pos hneg]
  rw [if_neg hneg, if_neg hneg]
  simp only [perform_bind, perform_balance?, perform_orRefuse]
  cases l.balance? source with
  | none => rfl
  | some balance =>
    simp only
    cases Ledger.take? balance amount with
    | none => rfl
    | some rest =>
      simp only
      by_cases hself : source = target
      · rw [if_pos hself, if_pos hself]
        rfl
      rw [if_neg hself, if_neg hself]
      simp only [perform_bind, perform_balance?, perform_orRefuse]
      cases Ledger.add? ((l.balance? target).getD 0) amount with
      | none => rfl
      | some sum => simp only [perform_write]

end Perform

/-- A transaction in place comes to the same as `Ledger.apply`, and a refusal leaves the ledger
    as it was. -/
theorem perform_statements (t : Transaction) (l : Ledger) :
    perform (statements t) l =
      match l.apply t with
      | .ok l' => (.ok (), l')
      | .error e => (.error e, l) := by
  cases t with
  | deposit account amount =>
    have happly : l.apply (.deposit account amount) = (l.deposit account amount).map (·.2) := rfl
    show perform (deposit account amount >>= fun _ => pure ()) l = _
    rw [happly, perform_bind, perform_deposit]
    cases l.deposit account amount <;> rfl
  | transfer source target amount => exact perform_transfer l source target amount

end InPlace

/-! ## One transaction -/

namespace Ledger

variable {l l' : Ledger} {account source target : Account} {a b c amount : Int64}

theorem toInt_of_add? (h : add? a b = some c) : c.toInt = a.toInt + b.toInt := by
  unfold add? at h
  dsimp only at h
  rw [Int64.toInt_minValue, Int64.toInt_maxValue] at h
  split at h
  · rename_i hrange
    cases h
    exact Int64.toInt_ofInt_of_le hrange.1 (by omega)
  · cases h

theorem toInt_of_take? (h : take? a b = some c) :
    c.toInt = a.toInt - b.toInt ∧ 0 ≤ c.toInt := by
  unfold take? at h
  dsimp only at h
  rw [Int64.toInt_maxValue] at h
  split at h
  · rename_i hrange
    cases h
    rw [Int64.toInt_ofInt_of_le (by omega) (by omega)]
    exact ⟨rfl, hrange.1⟩
  · cases h

/-- What an account is worth: its balance, or nothing if it does not exist. -/
def worth (l : Ledger) (account : Account) : Int :=
  ((l.balance? account).map Int64.toInt).getD 0

theorem toInt_getD_balance? (l : Ledger) (account : Account) :
    ((l.balance? account).getD 0).toInt = l.worth account := by
  unfold worth
  cases l.balance? account with
  | none => exact Int64.toInt_zero
  | some balance => rfl

/-- What an accepted transaction does. -/
inductive Accepted (l : Ledger) : Transaction → Ledger → Prop
  | deposit {account : Account} {amount sum : Int64} (positive : 0 ≤ amount.toInt)
      (value : sum.toInt = l.worth account + amount.toInt) :
      Accepted l (.deposit account amount) (l.set account sum)
  | toSelf {account : Account} {amount : Int64} :
      Accepted l (.transfer account account amount) l
  | transfer {source target : Account} {amount rest sum : Int64} (positive : 0 ≤ amount.toInt)
      (apart : source ≠ target) (left : rest.toInt = l.worth source - amount.toInt)
      (covered : 0 ≤ rest.toInt) (value : sum.toInt = l.worth target + amount.toInt) :
      Accepted l (.transfer source target amount) ((l.set source rest).set target sum)

theorem nonneg_of_not_lt (h : ¬ amount < 0) : 0 ≤ amount.toInt := by
  rw [Int64.lt_iff_toInt_lt, Int64.toInt_zero] at h
  exact Int.not_lt.1 h

theorem accepted_of_deposit (h : l.deposit account amount = .ok (a, l')) :
    Accepted l (.deposit account amount) l' := by
  unfold deposit at h
  split at h
  · cases h
  rename_i hneg
  split at h
  · cases h
  rename_i hsum
  cases h
  refine .deposit (nonneg_of_not_lt hneg) ?_
  rw [toInt_of_add? hsum, toInt_getD_balance?]

theorem accepted_of_transfer (h : l.transfer source target amount = .ok l') :
    Accepted l (.transfer source target amount) l' := by
  unfold transfer at h
  split at h
  · cases h
  rename_i hneg
  split at h
  · cases h
  rename_i balance hbalance
  split at h
  · cases h
  rename_i rest hrest
  obtain ⟨hleft, hcovered⟩ := toInt_of_take? hrest
  split at h
  · rename_i hself
    cases h
    subst hself
    exact .toSelf
  rename_i hapart
  split at h
  · cases h
  rename_i sum hsum
  cases h
  refine .transfer (nonneg_of_not_lt hneg) hapart ?_ hcovered ?_
  · rw [hleft, worth, hbalance]
    rfl
  · rw [toInt_of_add? hsum, toInt_getD_balance?]

theorem accepted_of_apply {t : Transaction} (h : l.apply t = .ok l') : Accepted l t l' := by
  cases t with
  | deposit account amount =>
    unfold apply at h
    dsimp only at h
    cases hdeposit : l.deposit account amount with
    | error e =>
      rw [hdeposit] at h
      cases h
    | ok x =>
      rw [hdeposit] at h
      cases h
      exact accepted_of_deposit hdeposit
  | transfer source target amount => exact accepted_of_transfer h

/-! ## Balances -/

/-- What all balances sum up to. -/
def total (l : Ledger) : Int := (l.balances.values.map Int64.toInt).sum

/-- No balance is negative. -/
def Sound (l : Ledger) : Prop := ∀ account, 0 ≤ l.worth account

/-- What a transaction brings in from outside if it is accepted. -/
def deposited : Transaction → Int
  | .deposit _ amount => amount.toInt
  | .transfer .. => 0

theorem balance?_set (l : Ledger) (account other : Account) (a : Int64) :
    (l.set account a).balance? other = if other = account then some a else l.balance? other :=
  SortedMap.get?_insert_eq_ite ..

theorem worth_set (l : Ledger) (account other : Account) (a : Int64) :
    (l.set account a).worth other = if other = account then a.toInt else l.worth other := by
  unfold worth
  rw [balance?_set]
  split <;> rfl

theorem total_set (l : Ledger) (account : Account) (a : Int64) :
    (l.set account a).total + l.worth account = l.total + a.toInt :=
  SortedMap.sum_insert Int64.toInt l.balances account a

theorem Sound.set (h : l.Sound) (ha : 0 ≤ a.toInt) : (l.set account a).Sound := by
  intro other
  rw [worth_set]
  split
  · exact ha
  · exact h other

theorem Sound.accepted {t : Transaction} (h : l.Sound) (step : Accepted l t l') : l'.Sound := by
  cases step with
  | deposit positive value =>
    exact h.set (by have := h ‹_›; omega)
  | toSelf => exact h
  | transfer positive apart left covered value =>
    exact (h.set covered).set (by have := h ‹_›; omega)

/-- Only a deposit changes the total, and it adds what is deposited. -/
theorem total_accepted {t : Transaction} (step : Accepted l t l') :
    l'.total = l.total + deposited t := by
  cases step with
  | @deposit account amount sum positive value =>
    have := total_set l account sum
    show _ = l.total + amount.toInt
    omega
  | toSelf => exact (Int.add_zero _).symm
  | @transfer source target amount rest sum positive apart left covered value =>
    -- The target is worth the same before and after the source is debited.
    have hsource := total_set l source rest
    have htarget := total_set (l.set source rest) target sum
    rw [worth_set, if_neg (Ne.symm apart)] at htarget
    show _ = l.total + 0
    omega

theorem isSome_balance?_set (h : (l.balance? account).isSome) (other : Account) :
    ((l.set other a).balance? account).isSome := by
  rw [balance?_set]
  split
  · rfl
  · exact h

/-- Accounts do not go away. -/
theorem isSome_balance?_accepted {t : Transaction} (step : Accepted l t l')
    (h : (l.balance? account).isSome) : (l'.balance? account).isSome := by
  cases step with
  | deposit => exact isSome_balance?_set h _
  | toSelf => exact h
  | transfer => exact isSome_balance?_set (isSome_balance?_set h _) _

theorem sound_empty : (∅ : Ledger).Sound := fun _ => Int.le_refl 0

end Ledger

/-! ## Any number of transactions -/

namespace InPlace

variable {l : Ledger}

/-- A transaction is accepted and does what it should, or it changes nothing. -/
theorem perform_statements_cases (t : Transaction) (l : Ledger) :
    (∃ l', perform (statements t) l = (.ok (), l') ∧ l.Accepted t l') ∨
      ∃ e, perform (statements t) l = (.error e, l) := by
  rw [perform_statements]
  cases happly : l.apply t with
  | ok l' => exact .inl ⟨l', rfl, Ledger.accepted_of_apply happly⟩
  | error e => exact .inr ⟨e, rfl⟩

theorem perform_statements_of_error {t : Transaction} {e : LedgerError}
    (h : (perform (statements t) l).1 = .error e) : (perform (statements t) l).2 = l := by
  rcases perform_statements_cases t l with ⟨l', heq, -⟩ | ⟨e', heq⟩
  · rw [heq] at h
    cases h
  · rw [heq]

theorem run_append (l : Ledger) (ts more : List Transaction) :
    (run l (ts ++ more)).2 = (run (run l ts).2 more).2 := by
  induction ts generalizing l with
  | nil => rfl
  | cons t ts ih => exact ih _

theorem run_eq_foldl (l : Ledger) (ts : List Transaction) :
    (run l ts).2 = ts.foldl Ledger.carry l := by
  induction ts generalizing l with
  | nil => rfl
  | cons t ts ih =>
    have hcarry : (perform (statements t) l).2 = l.carry t := by
      unfold Ledger.carry
      rw [perform_statements]
      cases l.apply t <;> rfl
    rw [List.foldl_cons, ← hcarry]
    exact ih _

theorem sound_run (h : l.Sound) (ts : List Transaction) : (run l ts).2.Sound := by
  induction ts generalizing l with
  | nil => exact h
  | cons t ts ih =>
    refine ih (l := (perform (statements t) l).2) ?_
    rcases perform_statements_cases t l with ⟨l', heq, step⟩ | ⟨e, heq⟩
    · rw [heq]
      exact h.accepted step
    · rw [heq]
      exact h

theorem isSome_balance?_run {account : Account} (h : (l.balance? account).isSome)
    (ts : List Transaction) : ((run l ts).2.balance? account).isSome := by
  induction ts generalizing l with
  | nil => exact h
  | cons t ts ih =>
    refine ih (l := (perform (statements t) l).2) ?_
    rcases perform_statements_cases t l with ⟨l', heq, step⟩ | ⟨e, heq⟩
    · rw [heq]
      exact Ledger.isSome_balance?_accepted step h
    · rw [heq]
      exact h

theorem total_run (l : Ledger) (ts : List Transaction) :
    (run l ts).2.total
      = l.total + (((run l ts).1.filterMap acceptedDeposit?).map Int64.toInt).sum := by
  induction ts generalizing l with
  | nil => exact (Int.add_zero _).symm
  | cons t ts ih =>
    have hrun : run l (t :: ts) = ((t, (perform (statements t) l).1)
        :: (run (perform (statements t) l).2 ts).1, (run (perform (statements t) l).2 ts).2) := rfl
    rw [hrun, ih, List.filterMap_cons]
    rcases perform_statements_cases t l with ⟨l', heq, step⟩ | ⟨e, heq⟩
    · rw [heq, Ledger.total_accepted step, Int.add_assoc]
      cases t with
      | deposit account amount => rfl
      | transfer source target amount =>
        show _ + (0 + _) = _
        rw [Int.zero_add]
        rfl
    · rw [heq]
      cases t <;> rfl

end InPlace

/-- Whatever transactions a new ledger is given, accepted or not, it is left as `Ledger.replay`
    says; its balances are in range and sum up to the deposits that were accepted; no later
    transaction makes an account go away, and one that is refused leaves every balance as it
    was. -/
theorem books_balance (ts : List Transaction) :
    let (entries, l) := InPlace.run ∅ ts
    l = Ledger.replay ts ∧
    (∀ account balance, l.balance? account = some balance →
      0 ≤ balance.toInt ∧ balance.toInt ≤ 2 ^ 63 - 1) ∧
    l.total = ((entries.filterMap InPlace.acceptedDeposit?).map Int64.toInt).sum ∧
    (∀ more account, (l.balance? account).isSome →
      ((InPlace.run ∅ (ts ++ more)).2.balance? account).isSome) ∧
    ∀ t e, (InPlace.perform (InPlace.statements t) l).1 = .error e →
      (InPlace.perform (InPlace.statements t) l).2 = l := by
  refine ⟨InPlace.run_eq_foldl ∅ ts, fun account balance hbalance => ?_, ?_,
    fun more account haccount => ?_, fun t e => InPlace.perform_statements_of_error⟩
  · have hsound := InPlace.sound_run Ledger.sound_empty ts account
    rw [Ledger.worth, hbalance] at hsound
    exact ⟨hsound, Int.le_sub_one_of_lt balance.toInt_lt⟩
  · exact (InPlace.total_run ∅ ts).trans (Int.zero_add _)
  · rw [InPlace.run_append]
    exact InPlace.isSome_balance?_run haccount more

-- The debit of a transfer that its target has no room for is not written.
example : (InPlace.run ∅ [.deposit "a" 5, .deposit "b" Int64.maxValue,
    .transfer "a" "b" 3]).2.balances.entries = [("a", 5), ("b", Int64.maxValue)] := by
  decide +kernel

end Bank

end AgreedOrder
