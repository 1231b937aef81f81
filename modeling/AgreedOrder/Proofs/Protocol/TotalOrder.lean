/-
  AgreedOrder.Proofs.Protocol.TotalOrder

  No member delivers a message twice, and any two members deliver the messages
  that both deliver in the same order, whoever crashes and whenever it is
  noticed. A message has the same key wherever it is delivered, and every
  member delivers in the order of the keys.

    * `Invariant.delivery_eq` — a message is the same delivery everywhere.
    * `delivered_once_in_one_order` — the same order everywhere.
-/

import AgreedOrder.Proofs.Protocol.Act
import AgreedOrder.Proofs.Protocol.Invariant
import Mathlib.Data.List.Pairwise

namespace AgreedOrder.Protocol

variable {g : Roster} {s : State}

/-! ## Sorted deliveries -/

/-- Of two sorted deliveries the one with the smaller key comes first. -/
theorem pair_sublist_of_before {l : List Delivery} (hl : l.Pairwise Delivery.Before)
    {a b : Delivery} (ha : a ∈ l) (hb : b ∈ l) (hab : a.Before b) : [a, b].Sublist l := by
  have hne : a ≠ b := fun heq => Delivery.not_before_self b (heq ▸ hab)
  have hsymm : Std.Symm fun x y => [x, y].Sublist l ∨ [y, x].Sublist l := ⟨fun _ _ h => h.symm⟩
  have hpairs : l.Pairwise fun x y => [x, y].Sublist l ∨ [y, x].Sublist l :=
    List.pairwise_iff_forall_sublist.2 fun hxy => Or.inl hxy
  rcases hpairs.forall ha hb hne with hsub | hsub
  · exact hsub
  · exact absurd (List.pairwise_iff_forall_sublist.1 hl hsub) hab.not_symm

/-! ## The same delivery everywhere -/

/-- A message that two members deliver has the same number, process and body at both. -/
theorem Invariant.delivery_eq (h : Invariant g s) {p q : NodeId} {d e : Delivery}
    (hd : d ∈ s.delivered p) (he : e ∈ s.delivered q) (hid : d.id = e.id) : d = e := by
  have hdtaken := (h.placed p).delivered_taken d hd
  have hetaken := (h.placed q).delivered_taken e he
  have heq := h.announcing.agreement_eq (h.announcing.taken_mem p _ hdtaken).2
    (h.announcing.taken_mem q _ hetaken).2 hid
  obtain ⟨a, ha, haid, hbody⟩ := (h.placed p).delivered_asked d hd
  obtain ⟨b, hb, hbid, hbody'⟩ := (h.placed q).delivered_asked e he
  have hab := h.asking.ask_eq ha hb (haid.trans (hid.trans hbid.symm))
  obtain ⟨id, number, process, body⟩ := d
  obtain ⟨id', number', process', body'⟩ := e
  injection heq with hprocess _ hnumber
  rw [Delivery.mk.injEq]
  exact ⟨hid, hnumber, hprocess, hbody.trans (hab ▸ hbody'.symm)⟩

/-- The ids of the messages that a member has delivered, in order. -/
def State.deliveredIds (s : State) (p : NodeId) : List MessageId := (s.delivered p).map (·.id)

theorem Invariant.nodup_deliveredIds (h : Invariant g s) (p : NodeId) :
    (s.deliveredIds p).Nodup := by
  rw [State.deliveredIds, List.nodup_iff_pairwise_ne, List.pairwise_map]
  refine (h.placed p).sorted.imp_of_mem fun {d e} hd he hbefore hid => ?_
  rw [h.delivery_eq hd he hid] at hbefore
  exact Delivery.not_before_self e hbefore

/-! ## The same order everywhere -/

theorem Invariant.pair_sublist (h : Invariant g s) {p q : NodeId} {first second : MessageId}
    (hp : [first, second].Sublist (s.deliveredIds p)) (hfirst : first ∈ s.deliveredIds q)
    (hsecond : second ∈ s.deliveredIds q) : [first, second].Sublist (s.deliveredIds q) := by
  obtain ⟨l, hsub, hl⟩ := List.sublist_map_iff.1 hp
  obtain ⟨d, e, rfl⟩ : ∃ d e, l = [d, e] :=
    List.length_eq_two.1 (by rw [← List.length_map, ← hl]; rfl)
  cases hl
  obtain ⟨d', hd', hdid⟩ := List.mem_map.1 hfirst
  obtain ⟨e', he', heid⟩ := List.mem_map.1 hsecond
  have hde : d.Before e := List.pairwise_iff_forall_sublist.1 (h.placed p).sorted hsub
  rw [h.delivery_eq hd' (hsub.subset (List.mem_cons_self ..)) hdid] at hd'
  rw [h.delivery_eq he' (hsub.subset (List.mem_cons_of_mem _ (List.mem_singleton_self e))) heid]
    at he'
  exact (pair_sublist_of_before (h.placed q).sorted hd' he' hde).map _

/-- As long as numbers are left, no member delivers a message twice, and any two members deliver
    any two messages that both deliver in the same order. -/
theorem delivered_once_in_one_order (hs : Reachable g s) (hleft : s.NumbersLeft g) :
    (∀ p, (s.deliveredIds p).Nodup) ∧
      ∀ p q first second, [first, second].Sublist (s.deliveredIds p) →
        first ∈ s.deliveredIds q → second ∈ s.deliveredIds q →
        [first, second].Sublist (s.deliveredIds q) := by
  have h := hs.invariant hleft
  refine ⟨h.nodup_deliveredIds, fun p q first second hp hfirst hsecond => ?_⟩
  exact h.pair_sublist hp hfirst hsecond

/-! ## A run with a crash -/

/-- Three members. -/
def trio : Roster where
  nodes := [⟨"a", .v4 .unspecified 1⟩, ⟨"b", .v4 .unspecified 2⟩, ⟨"c", .v4 .unspecified 3⟩]
  capacity := 4
  nodup := by decide

/-- Member `c` sends a message, collects the votes of all three members and announces. -/
def pollActs (id : MessageId) : List Act :=
  [.submit "c" id ⟨"path", []⟩, .takeAsk "c" id, .takeAsk "b" id, .takeAsk "a" id,
    .takeProposal "c" "a" id, .takeProposal "c" "b" id, .takeProposal "c" "c" id, .count "c"]

/-- Members `a` and `b` deliver two messages of `c`. Then `a` delivers a third one, but `c` crashes
    and `b` notices before it is handed the agreement. -/
def raceActs : List Act :=
  pollActs ⟨1⟩ ++ pollActs ⟨2⟩ ++ [.takeAgreement "a" ⟨2⟩, .takeAgreement "b" ⟨1⟩,
    .takeAgreement "a" ⟨1⟩, .takeAgreement "b" ⟨2⟩] ++ pollActs ⟨3⟩
    ++ [.takeAgreement "a" ⟨3⟩, .crash "c", .eject "b" "c", .watch "b"]

theorem numbersLeft_run_raceActs : (run trio raceActs).NumbersLeft trio := by
  decide +kernel

theorem delivered_once_in_one_order_of_race :
    (run trio raceActs).NumbersLeft trio ∧
      [⟨1⟩, ⟨2⟩].Sublist ((run trio raceActs).deliveredIds "a") ∧
      [⟨1⟩, ⟨2⟩].Sublist ((run trio raceActs).deliveredIds "b") := by
  have hleft := numbersLeft_run_raceActs
  have ha : [⟨1⟩, ⟨2⟩].Sublist ((run trio raceActs).deliveredIds "a") := by decide +kernel
  obtain ⟨-, horder⟩ := delivered_once_in_one_order (reachable_run trio raceActs) hleft
  exact ⟨hleft, ha, horder "a" "b" ⟨1⟩ ⟨2⟩ ha (by decide +kernel) (by decide +kernel)⟩

end AgreedOrder.Protocol
