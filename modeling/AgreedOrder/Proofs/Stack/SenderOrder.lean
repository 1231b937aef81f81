/-
  AgreedOrder.Proofs.Stack.SenderOrder

  Messages of one sender are delivered in the order in which they were sent,
  if the sender sends the second one when its multicast of the first one is
  over, and members take lines one after the other. The ask for the second
  message comes behind that for the first one on every way through the group,
  so every member proposes for the first one before, and with smaller numbers.

    * `State.proposedIds`, `State.agreements`, `State.deliveredIds` — what is
      in order.
    * `sender_order_kept` — one message before the other.
-/

import AgreedOrder.Proofs.Protocol.SenderOrder
import AgreedOrder.Proofs.Stack.Overtaking
import AgreedOrder.Proofs.Stack.Rest

namespace AgreedOrder.Stack

open Json
open Protocol (Roster trio)
open Flooding (Sending)

variable {g : Roster} {n n' : Flooding.State} {s s₀ s₁ s' : State} {t : Protocol.State}
  {p q : NodeId} {f f₁ f₂ : Flood} {id id₁ id₂ floodId floodId₁ floodId₂ : MessageId}
  {message message₁ message₂ : Message} {targets targets₁ targets₂ : List NodeId}

namespace State

/-- The messages that a member has proposed numbers for, in order: those whose asks it has
    handled. -/
def proposedIds (s : State) (p : NodeId) : List MessageId :=
  s.net.routed.filterMap fun y => if y.1 = p then (askOf? y.2).map (·.id) else none

/-- The agreements that were multicast. -/
def agreements (s : State) : List Agreement := s.net.issued.filterMap fun x => agreementOf? x.2

/-- The messages that a member has delivered, in order: those that it has handed to its application,
    and those that it has yet to. -/
def deliveredIds (s : State) (p : NodeId) : List MessageId :=
  (s.handed p ++ (s.net.members p).released).map (·.id)

/-- No message and no envelope has these ids yet. -/
def Fresh (s : State) (id floodId : MessageId) : Prop :=
  (∀ x ∈ s.sent, x.1 ≠ id) ∧ ∀ x ∈ s.net.issued, x.2.id ≠ floodId

/-- The envelope in which a message is sent. -/
def askFlood (p : NodeId) (id floodId : MessageId) (message : Message) : Flood :=
  ⟨floodId, ControlPath.ask.text, Record.encode (Ask.mk p id (Record.encode message))⟩

/-- The call that multicasts an envelope has returned: the line is in all queues. -/
def Returned (s : State) (p : NodeId) (f : Flood) : Prop :=
  ∀ x ∈ s.net.sendings, ¬Spreads x p f none

end State

theorem askOf?_askFlood (p : NodeId) (id floodId : MessageId) (message : Message) :
    askOf? (State.askFlood p id floodId message) = some ⟨p, id, Record.encode message⟩ :=
  askOf?_encode floodId _

/-! ## Sending -/

theorem orderly_submit (message : Message) (member : p ∈ g.ids) (fresh : s.Fresh id floodId)
    (order : targets.Perm (s.net.members p).peers.liveIds) :
    Orderly g s (s.submit p id floodId message targets) :=
  orderly_of_length_le (.submit member fresh.1 fresh.2 order) (Nat.le_refl _)

/-- To send a message opens a multicast. -/
theorem opened_submit (hs : Standing g s.net) (fresh : s.Fresh id floodId)
    (order : targets.Perm (s.net.members p).peers.liveIds) :
    Opened g s.net (s.submit p id floodId message targets).net p
      (State.askFlood p id floodId message) :=
  opened_multicast hs ⟨rfl, rfl, rfl, rfl, rfl⟩ fresh.2 order

theorem Turn.issued_of (h : Turn g n n') {x : NodeId × Flood} (hx : x ∈ n.issued) :
    x ∈ n'.issued := by
  cases h with
  | flow h => exact h.issued ▸ hx
  | opened h => exact h.issued ▸ List.mem_append_left _ hx
  | heard h => exact h.issued ▸ hx

/-- What was issued stays so. -/
theorem issued_of_orderly (h : Reachable g s) (run : Relation.ReflTransGen (Orderly g) s s')
    {x : NodeId × Flood} (hx : x ∈ s.net.issued) : x ∈ s'.net.issued := by
  induction run with
  | refl => exact hx
  | tail run next ih => exact (next.turn (h.of_orderly run).wired).issued_of ih

/-- The envelope of the second message follows that of the first one. -/
theorem follows_of_submit (before : Relation.ReflTransGen (Orderly g) (State.init g) s₀)
    (member : p ∈ g.ids) (fresh₁ : s₀.Fresh id₁ floodId₁)
    (order₁ : targets₁.Perm (s₀.net.members p).peers.liveIds)
    (between : Relation.ReflTransGen (Orderly g) (s₀.submit p id₁ floodId₁ message₁ targets₁) s₁)
    (returned : s₁.Returned p (State.askFlood p id₁ floodId₁ message₁))
    (fresh₂ : s₁.Fresh id₂ floodId₂) (order₂ : targets₂.Perm (s₁.net.members p).peers.liveIds)
    (after : Relation.ReflTransGen (Orderly g) (s₁.submit p id₂ floodId₂ message₂ targets₂) s) :
    Relation.ReflTransGen (Orderly g) (State.init g) s ∧
      Follows s.net p (State.askFlood p id₁ floodId₁ message₁)
        (State.askFlood p id₂ floodId₂ message₂) := by
  have hrun₀ := before.tail (orderly_submit message₁ member fresh₁ order₁)
  have hrun₁ := hrun₀.trans between
  have hrun₂ := hrun₁.tail (orderly_submit message₂ member fresh₂ order₂)
  have hw₁ := (Reachable.init.of_orderly hrun₁).wired
  have hw₂ := (Reachable.init.of_orderly hrun₂).wired
  -- The first message was issued, and is so still when the second one is sent.
  have hfirst : (p, State.askFlood p id₁ floodId₁ message₁) ∈ s₁.net.issued := by
    refine issued_of_orderly (Reachable.init.of_orderly hrun₀) between ?_
    exact List.mem_append_right _ (List.mem_singleton_self _)
  have hfollows := (spread_of_orderly hrun₁).follows hw₁ hw₂ hfirst returned
    (opened_submit hw₁.standing fresh₂ order₂)
  exact ⟨hrun₂.trans after, hfollows.orderly hrun₂ after⟩

/-! ## What members do with the two messages -/

/-- An ask that a member has handled, under the id of the second message, is the one for it. -/
theorem Mirrors.flood_eq (h : Mirrors g s t) (hi : Protocol.Invariant g t) (hw : Wired g s.net)
    {ask ask₂ : Ask} (hissued : (p, f₂) ∈ s.net.issued) (hask₂ : askOf? f₂ = some ask₂)
    (hrouted : (q, f) ∈ s.net.routed) (hask : askOf? f = some ask) (hid : ask.id = ask₂.id) :
    f = f₂ := by
  obtain ⟨o, ho⟩ := hw.routing.issued _ (List.mem_append_left _ hrouted)
  exact (Prod.mk.inj (h.told.ask_inj hi.asking.nodup_ids ho hissued hask hask₂ hid)).2

section Follows

variable (h : Mirrors g s t) (hi : Protocol.Invariant g t) (hw : Wired g s.net)
  (hf : Follows s.net p f₁ f₂) {ask₁ ask₂ : Ask} (hask₁ : askOf? f₁ = some ask₁)
  (hask₂ : askOf? f₂ = some ask₂)

include h hi hw hf hask₁ hask₂

/-- Every member proposes for the first message before it does so for the second. -/
theorem Follows.leads_proposedIds (q : NodeId) :
    Leads ask₁.id ask₂.id (s.proposedIds q) := by
  refine (hf.routed q).filterMap (by rw [if_pos rfl, hask₁]; rfl) fun y hy hkey => ?_
  split at hkey
  · rename_i hq
    obtain ⟨ask, hask, hid⟩ := Option.map_eq_some_iff.1 hkey
    exact Prod.ext hq (h.flood_eq hi hw hf.second hask₂ hy hask hid)
  · cases hkey

theorem Follows.answersFirst : t.AnswersFirst ask₁.id ask₂.id := by
  intro q
  rw [h.told.answered]
  refine (hf.routed q).filterMap (by rw [hask₁]; rfl) fun y hy hkey => ?_
  obtain ⟨ask, hask, heq⟩ := Option.map_eq_some_iff.1 hkey
  obtain ⟨hq, hid⟩ := Prod.mk.inj heq
  exact Prod.ext hq (h.flood_eq hi hw hf.second hask₂ hy hask hid)

end Follows

theorem Mirrors.deliveredIds_eq (h : Mirrors g s t) (q : NodeId) :
    t.deliveredIds q = s.deliveredIds q := by
  rw [Protocol.State.deliveredIds, h.delivered, State.deliveredIds]

/-- In a quiet group every member has proposed for a message that was sent, and delivered it. -/
theorem Mirrors.complete_of_quiet (h : Mirrors g s t) (hr : Reachable g s)
    (hleft : s.NumbersLeft g) (hquiet : s.Quiet g) {ask : Ask} (hissued : (p, f) ∈ s.net.issued)
    (hask : askOf? f = some ask) (hq : q ∈ g.ids) :
    ask.id ∈ s.proposedIds q ∧ ask.id ∈ s.deliveredIds q := by
  constructor
  · refine List.mem_filterMap.2 ⟨(q, f), hquiet.routed hr.wired _ hissued q hq, ?_⟩
    rw [if_pos rfl, hask]
    rfl
  · have hasked : ask ∈ t.asked := by
      rw [h.told.asked]
      exact List.mem_filterMap.2 ⟨_, hissued, hask⟩
    have hsent : (ask.id, ask.body) ∈ s.sent.map fun x => (x.1, Record.encode x.2) :=
      h.sent ▸ List.mem_map.2 ⟨ask, hasked, rfl⟩
    obtain ⟨d, hd, heq⟩ := List.mem_map.1 ((hr.handed_perm hleft hquiet hq).mem_iff.2 hsent)
    exact List.mem_map.2 ⟨d, List.mem_append_left _ hd, (Prod.mk.inj heq).1⟩

/-! ## Sender order -/

/-- A member sends two messages, the second when the call that sent the first has returned. In
    whatever order members go through their queues, and however lines arrive, as long as each member
    takes one after the other and numbers are left, every member proposes for the first message
    before it proposes for the second, the number that is agreed for the first is smaller, and every
    member delivers the first before the second. Once nothing is on its way, every member has
    proposed for both and delivered both. -/
theorem sender_order_kept (before : Relation.ReflTransGen (Orderly g) (State.init g) s₀)
    (member : p ∈ g.ids) (fresh₁ : s₀.Fresh id₁ floodId₁)
    (order₁ : targets₁.Perm (s₀.net.members p).peers.liveIds)
    (between : Relation.ReflTransGen (Orderly g) (s₀.submit p id₁ floodId₁ message₁ targets₁) s₁)
    (returned : s₁.Returned p (State.askFlood p id₁ floodId₁ message₁))
    (fresh₂ : s₁.Fresh id₂ floodId₂) (order₂ : targets₂.Perm (s₁.net.members p).peers.liveIds)
    (after : Relation.ReflTransGen (Orderly g) (s₁.submit p id₂ floodId₂ message₂ targets₂) s)
    (hleft : s.NumbersLeft g) :
    (∀ q, Leads id₁ id₂ (s.proposedIds q)) ∧
      (∀ a ∈ s.agreements, ∀ b ∈ s.agreements, a.id = id₁ → b.id = id₂ → a.number < b.number) ∧
      (∀ q, Leads id₁ id₂ (s.deliveredIds q)) ∧
      (s.Quiet g → ∀ q ∈ g.ids, (id₁ ∈ s.proposedIds q ∧ id₁ ∈ s.deliveredIds q) ∧
        id₂ ∈ s.proposedIds q ∧ id₂ ∈ s.deliveredIds q) := by
  obtain ⟨run, hfollows⟩ :=
    follows_of_submit before member fresh₁ order₁ between returned fresh₂ order₂ after
  have hr := Reachable.init.of_orderly run
  have hw := hr.wired
  obtain ⟨t, ht⟩ := hr.mirrored
  have hnumbers := ht.numbersLeft_iff.2 hleft
  have hi := ht.reachable.invariant hnumbers
  have hrising := ht.reachable.rising hnumbers
  have hrun (r : NodeId) (_ : r ∈ g.ids) : t.Running r := ht.running hw.standing r
  have hask₁ := askOf?_askFlood p id₁ floodId₁ message₁
  have hask₂ := askOf?_askFlood p id₂ floodId₂ message₂
  have hanswers := hfollows.answersFirst ht hi hw hask₁ hask₂
  refine ⟨hfollows.leads_proposedIds ht hi hw hask₁ hask₂, fun a ha b hb haid hbid => ?_,
    fun q => ?_, fun hquiet q hq => ?_⟩
  · rw [State.agreements, ← ht.told.announced] at ha hb
    exact hi.agreement_lt hrising hrun hanswers ha hb haid hbid
  · rw [← ht.deliveredIds_eq]
    exact hi.delivered_first hrising hrun hanswers
  · exact ⟨ht.complete_of_quiet hr hleft hquiet hfollows.first hask₁ hq,
      ht.complete_of_quiet hr hleft hquiet hfollows.second hask₂ hq⟩

/-- Member `a` sends two messages, and all three members come to deliver them in that order. -/
theorem sender_order_kept_of_trio :
    ∃ s : State, Relation.ReflTransGen (Orderly trio) (State.init trio) s ∧ s.NumbersLeft trio ∧
      s.sent = [(⟨1⟩, ⟨"path", [1]⟩), (⟨2⟩, ⟨"path", [2]⟩)] ∧ ∀ q ∈ trio.ids,
        Leads ⟨1⟩ ⟨2⟩ (s.deliveredIds q) ∧ ⟨1⟩ ∈ s.deliveredIds q ∧ ⟨2⟩ ∈ s.deliveredIds q := by
  have member : "a" ∈ trio.ids := by decide
  have fresh₁ : (State.init trio).Fresh ⟨1⟩ ⟨1⟩ := ⟨nofun, nofun⟩
  have order₁ : ["c", "a", "b"].Perm ((State.init trio).net.members "a").peers.liveIds := by decide
  -- The first message is sent, and the group comes to rest.
  have run₀ : Relation.ReflTransGen (Orderly trio) (State.init trio)
      ((State.init trio).submit "a" ⟨1⟩ ⟨1⟩ ⟨"path", [1]⟩ ["c", "a", "b"]) :=
    .single (orderly_submit _ member fresh₁ order₁)
  obtain ⟨s₁, going₁, quiet₁⟩ := (Reachable.init.of_orderly run₀).exists_quiet (by decide)
  have between := Relation.ReflTransGen.mono (fun _ _ => Going.orderly) _ _ going₁
  have run₁ := run₀.trans between
  have sent₁ : s₁.sent = [(⟨1⟩, ⟨"path", [1]⟩)] := sent_eq_of_going going₁
  have returned : s₁.Returned "a" (State.askFlood "a" ⟨1⟩ ⟨1⟩ ⟨"path", [1]⟩) := by
    rw [State.Returned, quiet₁.sendings]
    exact nofun
  -- The second message is sent, and the group comes to rest again.
  have few₁ : s₁.net.issued.length < MessageId.supply := by
    have issued := (Reachable.init.of_orderly run₁).issued_length
    rw [sent₁, List.length_singleton] at issued
    exact Nat.lt_of_le_of_lt (Nat.le.intro issued) (by decide)
  obtain ⟨floodId, freshFlood⟩ := MessageId.exists_fresh (fun x => x.2.id) few₁
  have fresh₂ : s₁.Fresh ⟨2⟩ floodId := by
    refine ⟨?_, freshFlood⟩
    rw [sent₁]
    decide
  have order₂ := List.Perm.refl (s₁.net.members "a").peers.liveIds
  have run₂ := run₁.tail (orderly_submit ⟨"path", [2]⟩ member fresh₂ order₂)
  have sent₂ : (s₁.submit "a" ⟨2⟩ floodId ⟨"path", [2]⟩ (s₁.net.members "a").peers.liveIds).sent
      = [(⟨1⟩, ⟨"path", [1]⟩), (⟨2⟩, ⟨"path", [2]⟩)] := by
    show s₁.sent ++ [(⟨2⟩, ⟨"path", [2]⟩)] = _
    rw [sent₁]
    rfl
  obtain ⟨s, going₂, quiet⟩ := (Reachable.init.of_orderly run₂).exists_quiet
    (by rw [sent₂]; decide)
  have after := Relation.ReflTransGen.mono (fun _ _ => Going.orderly) _ _ going₂
  have run := run₂.trans after
  have sent := (sent_eq_of_going going₂).trans sent₂
  have left : s.NumbersLeft trio :=
    (Reachable.init.of_orderly run).numbersLeft_of_few (by rw [sent]; decide)
  obtain ⟨-, -, order, complete⟩ :=
    sender_order_kept .refl member fresh₁ order₁ between returned fresh₂ order₂ after left
  refine ⟨s, run, left, sent, fun q hq => ⟨order q, ?_⟩⟩
  obtain ⟨first, second⟩ := complete quiet q hq
  exact ⟨first.2, second.2⟩

end AgreedOrder.Stack
