/-
  AgreedOrder.Proofs.Stack.Rest

  Every group can come to rest. What is left to do is told by five numbers, of
  which each may grow only when one before it shrinks: the collections of votes
  that are open, the envelopes that members have still to handle, the work of
  carrying lines, the votes that are still to be counted, and the deliveries
  that are still to be handed over. As long as something is left to do, some
  member can do something that leaves less.

    * `toDo`, `Less` — what is left to do.
    * `Going` — what can happen without anything being sent anew, while only
      idle members take lines.
    * `exists_less_of_not_quiet` — something can be done.
    * `Reachable.exists_quiet` — every group can come to rest.
    * `Reachable.numbersLeft_of_few` — few messages use few numbers.
-/

import AgreedOrder.Proofs.MessageId
import AgreedOrder.Proofs.Protocol.Numbering
import AgreedOrder.Proofs.Stack.Mirror
import AgreedOrder.Proofs.Stack.Orderly
import Mathlib.Data.Prod.Lex
import Mathlib.Logic.Relation

namespace AgreedOrder.Stack

open Member (Alike)
open Protocol (Roster)
open Flooding (Sending Hop total total_append total_add_eq total_add_le total_congr hear lineOf
  total_setMember_add total_eq_zero hear_of_takeIn update_congr work_enqueue work_finish
  work_write work_remove work_arrive around_remove)

variable {g : Roster} {n n' : Flooding.State} {s s' : State} {p q : NodeId} {f : Flood}

/-! ## What is left to do -/

/-- The collections of votes that are open. -/
def polls (g : Roster) (n : Flooding.State) : Nat :=
  total (fun p => (n.members p).collectors.length) g.ids

/-- The envelopes that members have still to handle. -/
def unhandled (g : Roster) (n : Flooding.State) : Nat :=
  total (fun p => unrouted (fun _ => some ()) n.issued n.routed p ()) g.ids

/-- The votes that are still to be counted. -/
def uncounted (g : Roster) (n : Flooding.State) : Nat :=
  total (fun p => total (fun c => c.inbox.length) (n.members p).collectors) g.ids

/-- The deliveries that are still to be handed over. -/
def unreleased (g : Roster) (n : Flooding.State) : Nat :=
  total (fun p => (n.members p).released.length) g.ids

/-- What is left to do, what weighs most first. -/
def toDo (g : Roster) (n : Flooding.State) : ℕ ×ₗ ℕ ×ₗ ℕ ×ₗ ℕ ×ₗ ℕ :=
  toLex (polls g n, toLex (unhandled g n, toLex (n.work g.layout,
    toLex (uncounted g n, unreleased g n))))

/-- Less of something is left to do, and as much of all that weighs more. -/
inductive Less (g : Roster) (n' n : Flooding.State) : Prop
  | polls (less : polls g n' < polls g n)
  | unhandled (polls_eq : polls g n' = polls g n) (less : unhandled g n' < unhandled g n)
  | work (polls_eq : polls g n' = polls g n) (unhandled_eq : unhandled g n' = unhandled g n)
      (less : n'.work g.layout < n.work g.layout)
  | uncounted (polls_eq : polls g n' = polls g n) (unhandled_eq : unhandled g n' = unhandled g n)
      (work_eq : n'.work g.layout = n.work g.layout) (less : uncounted g n' < uncounted g n)
  | unreleased (polls_eq : polls g n' = polls g n) (unhandled_eq : unhandled g n' = unhandled g n)
      (work_eq : n'.work g.layout = n.work g.layout) (uncounted_eq : uncounted g n' = uncounted g n)
      (less : unreleased g n' < unreleased g n)

theorem Less.toDo_lt (h : Less g n' n) : toDo g n' < toDo g n := by
  simp only [toDo, Prod.Lex.toLex_lt_toLex]
  cases h with
  | polls less => exact Or.inl less
  | unhandled polls_eq less => exact Or.inr ⟨polls_eq, Or.inl less⟩
  | work polls_eq unhandled_eq less =>
    exact Or.inr ⟨polls_eq, Or.inr ⟨unhandled_eq, Or.inl less⟩⟩
  | uncounted polls_eq unhandled_eq work_eq less =>
    exact Or.inr ⟨polls_eq, Or.inr ⟨unhandled_eq, Or.inr ⟨work_eq, Or.inl less⟩⟩⟩
  | unreleased polls_eq unhandled_eq work_eq uncounted_eq less =>
    exact Or.inr ⟨polls_eq, Or.inr ⟨unhandled_eq, Or.inr ⟨work_eq, Or.inr ⟨uncounted_eq, less⟩⟩⟩⟩

/-- There is not less and less to do for ever. -/
theorem wellFounded_less (g : Roster) : WellFounded (Less g) :=
  Subrelation.wf Less.toDo_lt (InvImage.wf (toDo g) wellFounded_lt)

/-! ## What stays as it is -/

theorem polls_congr
    (h : ∀ p, (n'.members p).collectors.length = (n.members p).collectors.length) :
    polls g n' = polls g n := total_congr fun p _ => h p

theorem polls_multicast {targets : List NodeId} :
    polls g (n.multicast p f targets) = polls g n :=
  polls_congr fun q => congrArg List.length (alike_multicast q).collectors

theorem unhandled_congr (hissued : n'.issued = n.issued) (hrouted : n'.routed = n.routed) :
    unhandled g n' = unhandled g n := by
  rw [unhandled, hissued, hrouted, unhandled]

/-- A member that sends as before has as much work as before. -/
theorem work_setMember_of_sameWires {m : Member} (hm : (n.members p).SameWires m) :
    (n.setMember p m).work g.layout = n.work g.layout := by
  have hmember (q : NodeId) : g.layout.memberWork n.issued ((n.setMember p m).members q)
      = g.layout.memberWork n.issued (n.members q) := by
    refine update_congr (fun m => g.layout.memberWork n.issued m) ?_ q
    simp only [Flooding.Layout.memberWork, Flooding.unheard, hm.peers, hm.received, hm.stopped]
  have htotal : (n.setMember p m).membersWork g.layout = n.membersWork g.layout :=
    total_congr fun q _ => hmember q
  simp only [Flooding.State.work, htotal]
  rfl

/-- Lines that move on are less work. -/
theorem less_of_work (halike : ∀ p, Alike (n.members p) (n'.members p))
    (hissued : n'.issued = n.issued) (hrouted : n'.routed = n.routed)
    (h : n'.work g.layout < n.work g.layout) : Less g n' n :=
  .work (polls_congr fun p => congrArg List.length (halike p).collectors)
    (unhandled_congr hissued hrouted) h

/-- What the members have in all is less if one of them has less. -/
theorem total_setMember_lt {f : Member → Nat} {m : Member} (hp : p ∈ g.ids)
    (h : f m < f (n.members p)) : total (fun q => f ((n.setMember p m).members q)) g.ids
      < total (fun q => f (n.members q)) g.ids := by
  have hsum : total (fun q => f ((n.setMember p m).members q)) g.ids + f (n.members p)
      = total (fun q => f (n.members q)) g.ids + f m := total_setMember_add (g := g.layout) hp
  omega

/-- To announce an agreement closes a collection of votes. -/
theorem polls_announce {c : Collector} {before after : List Collector} (floodId : MessageId)
    (a : Agreement) (targets : List NodeId) (hp : p ∈ g.ids)
    (collecting : (s.net.members p).collectors = before ++ c :: after) :
    polls g (s.announce p (before ++ after) floodId a targets).net + 1 = polls g s.net := by
  have hsum : polls g (s.net.setMember p { s.net.members p with collectors := before ++ after })
      + (s.net.members p).collectors.length = polls g s.net + (before ++ after).length :=
    total_setMember_add (g := g.layout) (f := fun m => m.collectors.length) hp
  have hsame : polls g (s.announce p (before ++ after) floodId a targets).net
      = polls g (s.net.setMember p { s.net.members p with collectors := before ++ after }) :=
    polls_multicast
  rw [collecting, List.length_append, List.length_append, List.length_cons] at hsum
  omega

/-- To send a message opens a collection of votes. -/
theorem polls_submit (id floodId : MessageId) (message : Message) (targets : List NodeId)
    (hp : p ∈ g.ids) :
    polls g (s.submit p id floodId message targets).net = polls g s.net + 1 := by
  have hsum : polls g (s.net.setMember p ((s.net.members p).openCollector id))
      + (s.net.members p).collectors.length
        = polls g s.net + ((s.net.members p).openCollector id).collectors.length :=
    total_setMember_add (g := g.layout) (f := fun m => m.collectors.length) hp
  have hsame : polls g (s.submit p id floodId message targets).net
      = polls g (s.net.setMember p ((s.net.members p).openCollector id)) := polls_multicast
  have hlength : ((s.net.members p).openCollector id).collectors.length
      = (s.net.members p).collectors.length + 1 := List.length_append
  omega

/-! ## Envelopes that are handled -/

/-- An envelope that is routed to a member is handled by it. -/
theorem unhandled_route {o : NodeId} (hnodup : (n.issued.map (·.2.id)).Nodup)
    (ho : (o, f) ∈ n.issued) (hp : p ∈ g.ids) (hnew : (p, f) ∉ n.routed)
    (hissued : n'.issued = n.issued) (hrouted : n'.routed = n.routed ++ [(p, f)]) :
    unhandled g n' < unhandled g n := by
  have hself : unrouted (fun _ => some ()) n.issued n.routed p ()
      = unrouted (fun _ => some ()) n.issued (n.routed ++ [(p, f)]) p () + 1 :=
    unrouted_append hnodup ho hnew rfl
  rw [unhandled, hissued, hrouted]
  refine total_add_le (a := p) (c := 1) g.nodup hp (fun q hq => ?_) (Nat.le_of_eq hself.symm)
  exact unrouted_append_of_ne fun heq => absurd heq hq

/-- To handle an envelope opens no collection of votes, and routes nothing. -/
theorem handle_same (s : State) (p : NodeId) (f : Flood) :
    (s.handle p f).net.issued = s.net.issued ∧ (s.handle p f).net.routed = s.net.routed ∧
      ∀ q, ((s.handle p f).net.members q).collectors = (s.net.members q).collectors := by
  rcases handle_cases s p f with ⟨ask, -, -, heq⟩ | ⟨a, -, -, heq⟩ | ⟨-, -, heq⟩
  · obtain ⟨hissued, hrouted⟩ := issued_startUnicast
      (s.net.setMember p ((s.net.members p).answer ask).2) p ask.sender .proposal
      (Json.Record.encode ((s.net.members p).answer ask).1)
    rw [heq]
    refine ⟨hissued, hrouted, fun q => ?_⟩
    exact (alike_startUnicast q).collectors.trans (update_congr (·.collectors) (by rfl) q)
  · rw [heq]
    exact ⟨rfl, rfl, update_congr (·.collectors) (by rfl)⟩
  · rw [heq]
    exact ⟨rfl, rfl, fun _ => rfl⟩

theorem Routed.less {o : NodeId} (hr : Routed s n p f) (hw : Wired g s.net)
    (ho : (o, f) ∈ s.net.issued) (hp : p ∈ g.ids) :
    Less g ((s.setNet n).handle p f).net s.net := by
  obtain ⟨hissued, hrouted, hcollectors⟩ := handle_same (s.setNet n) p f
  refine .unhandled (polls_congr fun q => ?_) ?_
  · rw [hcollectors]
    exact congrArg List.length (hr.alike q).collectors
  · exact unhandled_route hw.nodup ho hp hr.new (hissued.trans hr.issued)
      (hrouted.trans hr.routed)

/-! ## Going on -/

/-- What can happen without anything being sent anew, while only idle members take lines. -/
structure Going (g : Roster) (s s' : State) : Prop where
  orderly : Orderly g s s'
  sent_eq : s'.sent = s.sent

theorem Move.sent_eq (next : Move g s s') : s'.sent = s.sent := by
  obtain ⟨n, rfl⟩ := next.eq_setNet
  rfl

/-- What moves without taking a line from a link. -/
theorem Move.going (next : Move g s s')
    (h : s.net.underWay.length ≤ s'.net.underWay.length) : Going g s s' :=
  ⟨orderly_of_length_le (.move next) h, next.sent_eq⟩

theorem sent_eq_of_going (run : Relation.ReflTransGen (Going g) s s') : s'.sent = s.sent := by
  induction run with
  | refl => rfl
  | tail _ going ih => exact going.sent_eq.trans ih

theorem exists_less_of_waiting (hp : p ∈ g.ids) (hq : q ∈ g.ids)
    (h : (s.net.members p).peers.waiting q ≠ []) : ∃ t, Going g s t ∧ Less g t.net s.net := by
  obtain ⟨line, peers, oldest⟩ := PeerTable.exists_takeLine h
  have hlength : s.net.underWay.length ≤ (s.net.write p q line peers).underWay.length :=
    List.length_append ▸ Nat.le_add_right _ _
  refine ⟨_, (Move.write oldest).going hlength, less_of_work (alike_write oldest) rfl rfl ?_⟩
  exact work_write (g := g.layout) hp hq oldest

/-- A sending goes on, or the queue where it waits does. -/
theorem exists_less_of_sending (hw : Wired g s.net) {x : Sending} (hx : x ∈ s.net.sendings) :
    ∃ t, Going g s t ∧ Less g t.net s.net := by
  obtain ⟨before, after, sending⟩ := List.append_of_mem hx
  cases htargets : x.targets with
  | cons q rest =>
    have hends := hw.ends x.node q x.line
      (Or.inr (Or.inr ⟨x, hx, rfl, rfl, htargets ▸ List.mem_cons_self ..⟩))
    by_cases hfull : ((s.net.members x.node).peers.enqueue q x.line).1 = .full
    · have hwaiting := PeerTable.waiting_ne_nil_of_full (hw.standing.roomy x.node) hfull
      exact exists_less_of_waiting hends.1 hends.2 hwaiting
    · refine ⟨_, (Move.enqueue sending htargets hfull).going (Nat.le_refl _),
        less_of_work (alike_enqueue x q _) rfl rfl ?_⟩
      exact work_enqueue sending htargets
  | nil =>
    have hlinks := underWay_finish s x (before ++ after)
    refine ⟨_, (Move.finish sending htargets).going (by rw [hlinks]), ?_⟩
    cases henvelope : x.envelope with
    | none =>
      rw [finish_of_none henvelope]
      exact less_of_work (fun _ => Member.alike_refl _) rfl
        (routed_finish_of_none henvelope s.net _) (work_finish sending)
    | some f =>
      rw [finish_of_some henvelope]
      have hhandled : (x.node, f) ∈ s.net.handled :=
        List.mem_append_right _ (mem_pending sending henvelope)
      obtain ⟨o, ho⟩ := hw.routing.issued _ hhandled
      exact (routed_finish hw sending htargets henvelope).less hw ho (hw.handler _ hhandled)

/-- A line that arrives is gone, or what it brings is handled or passed on. -/
theorem less_arrive (hw : Wired g s.net) {h : Hop} {before after : List Hop}
    {targets : List NodeId} (underWay : s.net.underWay = before ++ h :: after)
    (order : targets.Perm (s.net.members h.target).peers.liveIds) :
    Less g ((s.setNet { s.net with underWay := before ++ after }).arrive h.target h.line
      targets).net s.net := by
  have hgone := work_remove (g := g.layout) underWay
  obtain ⟨p, q, line⟩ := h
  have haround : s.net.Around p q line := (around_remove underWay).2 (Or.inr rfl)
  obtain ⟨-, hq⟩ := hw.ends p q line haround
  rcases hw.carried p q line haround with ⟨⟨o, f⟩, ho, rfl⟩ | ⟨v, rfl, rfl⟩
  · by_cases hseen : f.id ∈ (s.net.members q).received
    · rw [arrive_of_seen (s := s.setNet { s.net with underWay := before ++ after }) hseen]
      refine less_of_work (fun _ => Member.alike_refl _) rfl rfl ?_
      exact Nat.lt_of_succ_le (Nat.le_of_eq hgone)
    · have hself := hw.standing.self q
      have htargets : targets.length ≤ g.layout.ids.length := by
        refine order.length_eq.trans_le
          (List.subperm_of_subset (PeerTable.nodup_liveIds _) fun r hr => ?_).length_le
        exact (hw.standing.live q r).1 (((s.net.members q).peers.mem_liveIds r).1 hr)
      have hwork := work_arrive (g := g.layout) (s := { s.net with underWay := before ++ after })
        (p := p) hself hq htargets ho
      rw [Flooding.arrive_of_new (s := { s.net with underWay := before ++ after }) hself hseen]
        at hwork
      rw [arrive_of_new (s := s.setNet { s.net with underWay := before ++ after }) hself hseen]
      split
      · rename_i hpq
        subst hpq
        exact (routed_arrive hw underWay hseen).less hw ho hq
      · rename_i hpq
        rw [if_neg hpq] at hwork
        refine less_of_work (fun r => ?_) rfl rfl ?_
        · exact (alike_hear q f r).trans (alike_startSending (some f) targets r)
        · exact Nat.lt_of_le_of_lt hwork (Nat.lt_of_succ_le (Nat.le_of_eq hgone))
  -- A proposal waits to be counted instead.
  · have hlength : ((s.net.members q).collect v).collectors.length
        = (s.net.members q).collectors.length := List.length_map _
    rw [arrive_proposalLine]
    refine .work (polls_congr ?_) (unhandled_congr rfl rfl) ?_
    · exact update_congr (fun m => m.collectors.length) hlength
    · have hcollect : (s.net.members q).SameWires ((s.net.members q).collect v) :=
        ⟨rfl, rfl, rfl, rfl, rfl⟩
      have hsame := work_setMember_of_sameWires (g := g)
        (n := { s.net with underWay := before ++ after }) hcollect
      exact hsame ▸ Nat.lt_of_succ_le (Nat.le_of_eq hgone)

/-- A collection of votes that is over has come to an agreement. -/
theorem exists_agreement {c c' : Collector} {live : List NodeId} {changes : Nat}
    (advanced : c.advance live changes = (true, c')) : ∃ a, c'.votes.agreement = some a := by
  have hcomplete := Collector.advance_of_over (c := c) (by rw [advanced])
  rw [advanced, Collector.isComplete, Bool.and_eq_true, decide_eq_true_eq] at hcomplete
  exact Option.ne_none_iff_exists'.1 (Votes.agreement_ne_none hcomplete.1)

/-- A collection of votes counts what came in, and goes on or is over. -/
theorem exists_less_of_inbox (hids : s.net.issued.length < MessageId.supply)
    (hp : p ∈ g.ids) {c : Collector} (hc : c ∈ (s.net.members p).collectors)
    (hinbox : c.inbox ≠ []) : ∃ t, Going g s t ∧ Less g t.net s.net := by
  obtain ⟨before, after, collecting⟩ := List.append_of_mem hc
  cases hadvanced : c.advance (s.net.members p).peers.liveIds (s.net.members p).peers.changes with
  | mk isOver c' =>
    cases isOver with
    | false =>
      have hempty : c'.inbox = [] := by
        have hgoesOn := Collector.advance_of_open (c := c) (by rw [hadvanced])
        rw [hadvanced] at hgoesOn
        exact hgoesOn.inbox_eq
      have hwires : (s.net.members p).SameWires
          { s.net.members p with collectors := before ++ c' :: after } := ⟨rfl, rfl, rfl, rfl, rfl⟩
      refine ⟨_, (Move.goOn collecting hadvanced).going (Nat.le_refl _),
        .uncounted (polls_congr ?_) (unhandled_congr rfl rfl)
          (work_setMember_of_sameWires hwires) ?_⟩
      · refine update_congr (fun m => m.collectors.length) ?_
        simp only [collecting, List.length_append, List.length_cons]
      · refine total_setMember_lt (f := fun m => total (fun c => c.inbox.length) m.collectors) hp ?_
        have hpos := List.length_pos_iff.2 hinbox
        simp only [collecting, total_append, total, hempty, List.length_nil]
        omega
    | true =>
      obtain ⟨a, hagreement⟩ := exists_agreement hadvanced
      obtain ⟨floodId, hfresh⟩ := MessageId.exists_fresh (fun x => x.2.id) hids
      refine ⟨_, (Move.announce hp collecting hadvanced hagreement hfresh
        (List.Perm.refl (s.net.members p).peers.liveIds)).going (Nat.le_refl _), .polls ?_⟩
      have hclosed := polls_announce floodId a (s.net.members p).peers.liveIds hp collecting
      omega

theorem exists_less_of_released (hp : p ∈ g.ids) (h : (s.net.members p).released ≠ []) :
    ∃ t, Going g s t ∧ Less g t.net s.net := by
  obtain ⟨d, rest, oldest⟩ := List.exists_cons_of_ne_nil h
  have hwires : (s.net.members p).SameWires { s.net.members p with released := rest } :=
    ⟨rfl, rfl, rfl, rfl, rfl⟩
  have hcollectors (q : NodeId) : ((s.net.setMember p { s.net.members p with
      released := rest }).members q).collectors = (s.net.members q).collectors :=
    update_congr (fun m => m.collectors) (by rfl) q
  refine ⟨_, ⟨orderly_of_length_le (.handOver oldest) (Nat.le_refl _), rfl⟩,
    .unreleased (polls_congr fun q => ?_) (unhandled_congr rfl rfl)
      (work_setMember_of_sameWires hwires) (total_congr fun q _ => ?_) ?_⟩
  · exact congrArg List.length (hcollectors q)
  · exact congrArg (total fun c => c.inbox.length) (hcollectors q)
  · refine total_setMember_lt (f := fun m => m.released.length) hp ?_
    rw [oldest]
    exact Nat.lt_succ_self rest.length

/-- A group that is not at rest can go on so that less is left to do. -/
theorem exists_less_of_not_quiet (hw : Wired g s.net)
    (hids : s.net.issued.length < MessageId.supply) (h : ¬s.Quiet g) :
    ∃ t, Going g s t ∧ Less g t.net s.net := by
  by_contra hnone
  have hsendings : s.net.sendings = [] :=
    List.eq_nil_iff_forall_not_mem.2 fun x hx => hnone (exists_less_of_sending hw hx)
  refine h ⟨hsendings, ?_, fun p hp q hq => ?_, fun p hp c hc => ?_, fun p hp => ?_⟩
  -- A line may arrive when no sending is under way, since everybody is idle then.
  · cases hunderWay : s.net.underWay with
    | nil => rfl
    | cons k after =>
      have hsplit : s.net.underWay = [] ++ k :: after := hunderWay
      have hlive := List.Perm.refl (s.net.members k.target).peers.liveIds
      have hmove := Move.arrive (g := g) hsplit nofun hlive
      have horderly : Orderly g s _ :=
        ⟨.move hmove, fun h _ _ _ _ => idle_of_nil hsendings h.target⟩
      exact absurd ⟨_, ⟨horderly, hmove.sent_eq⟩, less_arrive hw hsplit hlive⟩ hnone
  · exact not_not.1 fun hne => hnone (exists_less_of_waiting hp hq hne)
  · exact not_not.1 fun hne => hnone (exists_less_of_inbox hids hp hc hne)
  · exact not_not.1 fun hne => hnone (exists_less_of_released hp hne)

/-! ## How many envelopes there are -/

/-- A line that arrives brings no new envelope, and opens no collection of votes. -/
theorem arrive_same (s : State) (q : NodeId) (line : String) (targets : List NodeId) :
    (s.arrive q line targets).net.issued = s.net.issued ∧ ∀ r,
      ((s.arrive q line targets).net.members r).collectors.length
        = (s.net.members r).collectors.length := by
  unfold State.arrive
  split
  · exact ⟨rfl, fun _ => rfl⟩
  split
  · unfold State.receive
    split
    · exact ⟨rfl, fun _ => rfl⟩
    · rename_i frame _ _ f m htake
      rw [hear_of_takeIn htake]
      have hheard (r : NodeId) := (alike_hear (n := s.net) q f r).collectors
      split
      · obtain ⟨hissued, -, hcollectors⟩ := handle_same
          (s.setNet ((s.net.setMember q (hear (s.net.members q) f)).route q f)) q f
        exact ⟨hissued, fun r => congrArg List.length ((hcollectors r).trans (hheard r))⟩
      · exact ⟨rfl, fun r => congrArg List.length
          ((alike_startSending (some f) targets r).collectors.trans (hheard r))⟩
  · refine ⟨rfl, update_congr (fun m => m.collectors.length) ?_⟩
    unfold Member.onProposal
    split
    · rfl
    · exact List.length_map _
  · exact ⟨rfl, fun _ => rfl⟩

theorem finish_same (s : State) (x : Sending) (sendings : List Sending) :
    (s.finish x sendings).net.issued = s.net.issued ∧ ∀ r,
      ((s.finish x sendings).net.members r).collectors.length
        = (s.net.members r).collectors.length := by
  cases hx : x.envelope with
  | none =>
    rw [finish_of_none hx]
    exact ⟨rfl, fun _ => rfl⟩
  | some f =>
    rw [finish_of_some hx]
    obtain ⟨hissued, -, hcollectors⟩ := handle_same (s.setNet (s.net.finish x sendings)) x.node f
    exact ⟨hissued, fun r => congrArg List.length (hcollectors r)⟩

theorem collectors_watchGroup (m : Member) : m.watchGroup.collectors = m.collectors := by
  unfold Member.watchGroup
  split <;> rfl

/-- Each envelope that moves add closes a collection of votes. -/
theorem Move.issued_length (next : Move g s s') : s'.net.issued.length + polls g s'.net
    = s.net.issued.length + polls g s.net := by
  have hsame {s' : State} (h : s'.net.issued = s.net.issued ∧ ∀ r,
      (s'.net.members r).collectors.length = (s.net.members r).collectors.length) :
      s'.net.issued.length + polls g s'.net = s.net.issued.length + polls g s.net := by
    rw [h.1, polls_congr h.2]
  cases next with
  | @enqueue x q _ _ _ _ _ _ =>
    exact hsame ⟨rfl, fun r => congrArg List.length (alike_enqueue x q _ r).collectors⟩
  | finish => exact hsame (finish_same s _ _)
  | write oldest =>
    exact hsame ⟨rfl, fun r => congrArg List.length (alike_write oldest r).collectors⟩
  | @arrive h before after targets =>
    exact hsame (arrive_same (s.setNet { s.net with underWay := before ++ after }) h.target h.line
      targets)
  | goOn collecting =>
    refine hsame ⟨rfl, update_congr (fun m => m.collectors.length) ?_⟩
    simp only [collecting, List.length_append, List.length_cons]
  | @announce p _ _ before after floodId a targets member collecting =>
    have hclosed := polls_announce floodId a targets member collecting
    have hissued : (s.announce p (before ++ after) floodId a targets).net.issued.length
        = s.net.issued.length + 1 := List.length_append
    omega
  | watch =>
    exact hsame ⟨rfl, update_congr (fun m => m.collectors.length)
      (congrArg List.length (collectors_watchGroup _))⟩

/-- A message takes two envelopes: its ask, and the agreement when its collection of votes is
    over. -/
theorem Reachable.issued_length (h : Reachable g s) :
    s.net.issued.length + polls g s.net = 2 * s.sent.length := by
  induction h with
  | init =>
    have hnone : polls g (State.init g).net = 0 := total_eq_zero fun _ _ => rfl
    rw [hnone]
    rfl
  | @step s s' _ next ih =>
    cases next with
    | @submit p id floodId message targets member =>
      have hopened := polls_submit (s := s) id floodId message targets member
      have hissued : (s.submit p id floodId message targets).net.issued.length
          = s.net.issued.length + 1 := List.length_append
      have hsent : (s.submit p id floodId message targets).sent.length = s.sent.length + 1 :=
        List.length_append
      omega
    | move next =>
      have hlength := next.issued_length (g := g)
      obtain ⟨n, rfl⟩ := next.eq_setNet
      exact hlength.trans ih
    | @handOver p d rest oldest =>
      have hpolls : polls g (s.handOver p d rest).net = polls g s.net :=
        polls_congr (update_congr (fun m => m.collectors.length) (by rfl))
      rw [hpolls]
      exact ih

/-! ## Rest -/

/-- Every group can come to rest without anything being sent anew. -/
theorem Reachable.exists_quiet (h : Reachable g s) (hfew : 2 * s.sent.length < MessageId.supply) :
    ∃ t, Relation.ReflTransGen (Going g) s t ∧ t.Quiet g := by
  induction hn : s.net using (wellFounded_less g).induction generalizing s with
  | _ n ih =>
    by_cases hquiet : s.Quiet g
    · exact ⟨s, .refl, hquiet⟩
    · have hissued := h.issued_length
      obtain ⟨t, hgoing, hless⟩ := exists_less_of_not_quiet h.wired (by omega) hquiet
      obtain ⟨u, hrun, hu⟩ := ih t.net (hn ▸ hless) (h.step hgoing.orderly.step)
        (hgoing.sent_eq ▸ hfew) rfl
      exact ⟨u, .head hgoing hrun, hu⟩

/-- A group that has sent few messages has numbers left. -/
theorem Reachable.numbersLeft_of_few (h : Reachable g s)
    (hfew : s.sent.length * g.ids.length < 18446744073709551615) : s.NumbersLeft g := by
  obtain ⟨t, ht⟩ := h.mirrored
  have hlength := congrArg List.length ht.sent
  rw [List.length_map, List.length_map] at hlength
  exact ht.numbersLeft_iff.1 (ht.reachable.numbersLeft_of_few (hlength ▸ hfew))

end AgreedOrder.Stack
