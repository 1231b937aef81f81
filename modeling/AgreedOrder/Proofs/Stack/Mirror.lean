/-
  AgreedOrder.Proofs.Stack.Mirror

  What happens on the lines between members is what happens in the group seen
  from outside. Lines that move on and envelopes that are passed on change
  nothing there; an envelope that is handled, a proposal that arrives, and what
  a member does of its own accord are one step each. So whatever holds of the
  group seen from outside holds of the whole stack.

    * `Member.prepend` — a member as if it had handed over nothing.
    * `Told` — what was said, as the envelopes tell it.
    * `Mirrors` — how the two views of a group belong together.
    * `Reachable.mirrored` — one follows the other in every run.
    * `Mirrors.quiet` — nothing on its way here, nothing on its way there.
    * `Reachable.handed_prefix`, `Reachable.handed_perm` — the applications
      are handed the same messages, and in the end all of them.
-/

import AgreedOrder.Proofs.Protocol.Completeness
import AgreedOrder.Proofs.Protocol.Handlers
import AgreedOrder.Proofs.Stack.Relaying

namespace AgreedOrder

open Json

/-! ## Deliveries that were handed over -/

namespace Member

/-- A member with some deliveries before those that it has released. -/
def prepend (m : Member) (ds : List Delivery) : Member := { m with released := ds ++ m.released }

variable {m m' : Member}

theorem Alike.prepend (h : Alike m m') (ds : List Delivery) :
    Alike (m.prepend ds) (m'.prepend ds) :=
  ⟨h.self, h.stopped, h.sequencer, h.collectors, congrArg (ds ++ ·) h.released, h.seenChanges,
    h.changes, h.isLive⟩

theorem prepend_release (m : Member) (ds : List Delivery) :
    (m.prepend ds).release = m.release.prepend ds := by
  unfold release prepend
  dsimp only
  rw [List.append_assoc]

theorem prepend_answer (m : Member) (ds : List Delivery) (ask : Ask) :
    ((m.prepend ds).answer ask).2 = (m.answer ask).2.prepend ds :=
  prepend_release { m with sequencer := (m.sequencer.onAsk ask).2 } ds

theorem prepend_adopt (m : Member) (ds : List Delivery) (a : Agreement) :
    (m.prepend ds).adopt a = (m.adopt a).prepend ds :=
  prepend_release { m with sequencer := (m.sequencer.onAgreement a).2 } ds

theorem prepend_watchGroup (m : Member) (ds : List Delivery) :
    (m.prepend ds).watchGroup = m.watchGroup.prepend ds := by
  by_cases h : m.seenChanges = m.peers.changes
  · rw [show m.watchGroup = m from if_pos h]
    exact if_pos h
  · rw [show m.watchGroup = release { m with seenChanges := m.peers.changes } from if_neg h,
      ← prepend_release]
    exact if_neg h

end Member

namespace Stack

open Member (Alike alike_refl alike_peers)
open Protocol (Roster)
open Flooding (Sending Hop hear lineOf update_congr around_remove firstArrival_route)

variable {g : Roster} {n n' : Flooding.State} {s s' : State} {t : Protocol.State} {p q : NodeId}
  {f : Flood}

/-! ## Members whose lines move on -/

theorem alike_setMember {m : Member} (h : Alike (n.members p) m) (q : NodeId) :
    Alike (n.members q) ((n.setMember p m).members q) := by
  show Alike (n.members q) (Function.update n.members p m q)
  by_cases hq : q = p
  · rw [hq, Function.update_self]
    exact h
  · rw [Function.update_of_ne hq]
    exact alike_refl _

theorem alike_startSending {body : Bytes} (envelope : Option Flood) (targets : List NodeId)
    (q : NodeId) : Alike (n.members q) ((n.startSending p body envelope targets).members q) := by
  have halike : Alike (n.members p) { n.members p with
      peers := (n.members p).peers.countForAll ((n.members p).frameLine .reliable body) } :=
    alike_peers _ rfl fun r => PeerTable.isLive_countForAll _ _ r
  exact alike_setMember halike q

theorem alike_startUnicast {path : ControlPath} {body : Bytes} (r : NodeId) :
    Alike (n.members r) ((startUnicast n p q path body).members r) := by
  cases hlive : (n.members p).peers.isLive q with
  | false =>
    rw [startUnicast_of_not_live hlive]
    exact alike_refl _
  | true =>
    obtain ⟨t, ⟨-, hchanges, hsame⟩, heq⟩ := startUnicast_of_live hlive path body
    rw [heq]
    exact alike_setMember (alike_peers _ hchanges hsame) r

theorem alike_enqueue (x : Sending) (q : NodeId) (l : List Sending) (r : NodeId) :
    Alike (n.members r) ((n.enqueue x q l).members r) := by
  have hqueued (r : NodeId) := (n.members x.node).peers.isLive_enqueue q x.line r
  have halike : Alike (n.members x.node) { n.members x.node with
      peers := ((n.members x.node).peers.enqueue q x.line).2 } :=
    alike_peers _ (hqueued "").2 fun r => (hqueued r).1
  exact alike_setMember halike r

theorem alike_write {line : String} {peers : PeerTable}
    (oldest : (n.members p).peers.takeLine q = (some (.line line), peers)) (r : NodeId) :
    Alike (n.members r) ((n.write p q line peers).members r) := by
  obtain ⟨-, -, hpeers, hchanges, -⟩ := PeerTable.takeLine_eq_line oldest
  have halike : Alike (n.members p) { n.members p with peers } := by
    refine alike_peers _ hchanges fun r => ?_
    show peers.peers.contains r = _
    rw [hpeers]
    rfl
  exact alike_setMember halike r

theorem alike_hear (q : NodeId) (f : Flood) (r : NodeId) :
    Alike (n.members r) ((n.setMember q (hear (n.members q) f)).members r) := by
  have halike : Alike (n.members q) (hear (n.members q) f) :=
    ⟨rfl, rfl, rfl, rfl, rfl, rfl, rfl, fun _ => rfl⟩
  exact alike_setMember halike r

/-! ## What was said -/

/-- What was said, as the envelopes tell it: each ask and each agreement was issued in one, and each
    answer was given when an ask was routed, all in the same order. -/
structure Told (n : Flooding.State) (t : Protocol.State) : Prop where
  asked : t.asked = n.issued.filterMap fun x => askOf? x.2
  announced : t.announced = n.issued.filterMap fun x => agreementOf? x.2
  answered : t.answered.map (fun v => (v.voter, v.id))
    = n.routed.filterMap fun y => (askOf? y.2).map fun ask => (y.1, ask.id)

theorem Told.congr {t' : Protocol.State} (h : Told n t) (hissued : n'.issued = n.issued)
    (hrouted : n'.routed = n.routed) (hasked : t'.asked = t.asked)
    (hannounced : t'.announced = t.announced) (hanswered : t'.answered = t.answered) :
    Told n' t' := by
  refine ⟨?_, ?_, ?_⟩
  · rw [hissued, hasked, h.asked]
  · rw [hissued, hannounced, h.announced]
  · rw [hrouted, hanswered, h.answered]

/-- A new envelope says what it holds. -/
theorem Told.issue {t' : Protocol.State} (h : Told n t) (hissued : n'.issued = n.issued ++ [(p, f)])
    (hrouted : n'.routed = n.routed) (hasked : t'.asked = t.asked ++ (askOf? f).toList)
    (hannounced : t'.announced = t.announced ++ (agreementOf? f).toList)
    (hanswered : t'.answered = t.answered) : Told n' t' := by
  refine ⟨?_, ?_, ?_⟩
  · rw [hissued, hasked, h.asked, filterMap_append_singleton]
  · rw [hissued, hannounced, h.announced, filterMap_append_singleton]
  · rw [hrouted, hanswered, h.answered]

/-- An ask that is routed is answered. -/
theorem Told.route {t' : Protocol.State} (h : Told n t) (hissued : n'.issued = n.issued)
    (hrouted : n'.routed = n.routed ++ [(p, f)]) (hasked : t'.asked = t.asked)
    (hannounced : t'.announced = t.announced)
    (hanswered : t'.answered.map (fun v => (v.voter, v.id))
      = t.answered.map (fun v => (v.voter, v.id)) ++
        ((askOf? f).map fun ask => (p, ask.id)).toList) : Told n' t' := by
  refine ⟨?_, ?_, ?_⟩
  · rw [hissued, hasked, h.asked]
  · rw [hissued, hannounced, h.announced]
  · rw [hrouted, hanswered, h.answered, filterMap_append_singleton]

/-! ## Two views of a group -/

/-- A group seen from outside, and the lines between its members: the members are alike, apart from
    what they have handed over; asks and agreements that are under way stand in envelopes that are
    still to be routed; and proposals that are under way stand on lines. -/
structure Mirrors (g : Roster) (s : State) (t : Protocol.State) : Prop where
  reachable : Protocol.Reachable g t
  members : ∀ p, Alike (t.members p) ((s.net.members p).prepend (s.handed p))
  asks : Relayed askOf? g s.net t.asks
  agreements : Relayed agreementOf? g s.net t.agreements
  proposals : ∀ q v, copies s.net v.voter q (proposalLine v) = t.proposals.count (q, v)
  sent : t.asked.map (fun a => (a.id, a.body)) = s.sent.map fun x => (x.1, Record.encode x.2)
  told : Told s.net t

/-- An ask is issued in one envelope. -/
theorem Told.ask_inj (h : Told n t) (hnodup : (t.asked.map (·.id)).Nodup) {x y : NodeId × Flood}
    (hx : x ∈ n.issued) (hy : y ∈ n.issued) {a b : Ask} (ha : askOf? x.2 = some a)
    (hb : askOf? y.2 = some b) (hid : a.id = b.id) : x = y := by
  rw [h.asked, List.map_filterMap] at hnodup
  exact eq_of_nodup_filterMap hnodup hx hy (by rw [ha, Option.map_some, hid]) (by rw [hb]; rfl)

theorem mirrors_init (g : Roster) : Mirrors g (State.init g) (Protocol.State.init g) where
  reachable := .init
  members _ := alike_refl _
  asks := relayed_init askOf? g
  agreements := relayed_init agreementOf? g
  proposals q v := by
    unfold copies
    rw [show ((State.init g).net.members v.voter).peers.waiting q = [] from
      (Member.queues_init v.voter g.nodes g.capacity q).1]
    rfl
  sent := rfl
  told := ⟨rfl, rfl, rfl⟩

theorem Mirrors.running (h : Mirrors g s t) (hs : Standing g s.net) (p : NodeId) :
    t.Running p := (h.members p).stopped.symm.trans (hs.running p)

/-- Both views of a member change alike. -/
theorem alike_update {m m' : Member} {ds : NodeId → List Delivery}
    (h : ∀ q, Alike (t.members q) ((n.members q).prepend (ds q)))
    (hm : Alike m (m'.prepend (ds p))) (q : NodeId) :
    Alike ((t.setMember p m).members q) (((n.setMember p m').members q).prepend (ds q)) := by
  show Alike _ ((Function.update n.members p m' q).prepend (ds q))
  by_cases hq : q = p
  · rw [hq, t.members_setMember_self, Function.update_self]
    exact hm
  · rw [t.members_setMember_of_ne _ hq, Function.update_of_ne hq]
    exact h q

/-- Lines that move on are not seen from outside. -/
theorem Mirrors.silent (h : Mirrors g s t)
    (hmembers : ∀ p, Alike (s.net.members p) (n.members p)) (hissued : n.issued = s.net.issued)
    (hrouted : n.routed = s.net.routed)
    (hproposals : ∀ a b v, copies n a b (proposalLine v) = copies s.net a b (proposalLine v)) :
    Mirrors g (s.setNet n) t where
  reachable := h.reachable
  members p := (h.members p).trans ((hmembers p).prepend _)
  asks := h.asks.congr hissued hrouted
  agreements := h.agreements.congr hissued hrouted
  proposals q v := (hproposals v.voter q v).trans (h.proposals q v)
  sent := h.sent
  told := h.told.congr hissued hrouted rfl rfl rfl

/-! ## Envelopes that are handled -/

/-- An envelope was routed to a member, which is now to handle it. -/
structure Routed (s : State) (n : Flooding.State) (p : NodeId) (f : Flood) : Prop where
  alike : ∀ q, Alike (s.net.members q) (n.members q)
  issued : n.issued = s.net.issued
  new : (p, f) ∉ s.net.routed
  routed : n.routed = s.net.routed ++ [(p, f)]
  copies_eq : ∀ a b v, copies n a b (proposalLine v) = copies s.net a b (proposalLine v)

/-- An envelope that was passed on is routed once that is over. -/
theorem routed_finish (hw : Wired g s.net) {x : Sending} {before after : List Sending}
    (sending : s.net.sendings = before ++ x :: after) (complete : x.targets = [])
    (hx : x.envelope = some f) : Routed s (s.net.finish x (before ++ after)) x.node f := by
  refine ⟨fun _ => alike_refl _, rfl, fun hrouted => ?_, ?_,
    fun _ _ _ => copies_finish sending complete⟩
  -- What is pending is handled once, and so not routed yet.
  · have hnodup := hw.routing.nodup
    rw [Flooding.State.handled, List.map_append, List.nodup_append] at hnodup
    have hpending := mem_pending sending hx
    exact hnodup.2.2 _ (List.mem_map_of_mem hrouted) _ (List.mem_map_of_mem hpending) rfl
  · show s.net.routed ++ x.envelope.toList.map (x.node, ·) = _
    rw [hx]
    rfl

/-- The line of an envelope that is gone was not that of a proposal. -/
theorem copies_remove_lineOf {before after : List Hop}
    (underWay : n.underWay = before ++ ⟨p, q, lineOf p f⟩ :: after) (a b : NodeId) (v : Proposal) :
    copies { n with underWay := before ++ after } a b (proposalLine v)
      = copies n a b (proposalLine v) := by
  rw [copies_remove underWay, if_neg fun heq => lineOf_ne_proposalLine p f v heq.2.2, Nat.add_zero]

/-- A new envelope that comes from the member itself is routed at once. -/
theorem routed_arrive (hw : Wired g s.net) {before after : List Hop}
    (underWay : s.net.underWay = before ++ ⟨q, q, lineOf q f⟩ :: after)
    (hnew : f.id ∉ (s.net.members q).received) :
    Routed s ((Flooding.State.setMember { s.net with underWay := before ++ after } q
      (hear (s.net.members q) f)).route q f) q f := by
  refine ⟨alike_hear q f, rfl, fun hrouted => hnew ?_, rfl, fun a b v => ?_⟩
  · exact hw.routing.heard _ (List.mem_append_left _ hrouted)
  · exact (copies_setMember (n := { s.net with underWay := before ++ after })
      (m := hear (s.net.members q) f) fun _ => rfl).trans (copies_remove_lineOf underWay a b v)

/-- A proposal that is sent to a live member is on one more line. -/
theorem copies_reply {r v : Proposal} {b : NodeId} (hs : Standing g n) (hr : r.voter = p)
    (hlive : (n.members p).peers.isLive q = true) :
    copies (startUnicast n p q .proposal (Record.encode r)) v.voter b (proposalLine v)
      = copies n v.voter b (proposalLine v) + [(q, r)].count (b, v) := by
  rw [copies_startUnicast hlive, frameLine_proposal ((hs.self p).trans hr.symm),
    List.count_singleton]
  by_cases heq : (q, r) = (b, v)
  · obtain ⟨rfl, rfl⟩ := Prod.mk.inj heq
    rw [if_pos ⟨hr.symm, rfl, rfl⟩, if_pos (beq_self_eq_true _)]
  · rw [if_neg ?_, if_neg fun h => heq (eq_of_beq h)]
    rintro ⟨-, hline, rfl⟩
    exact heq (by rw [proposalLine_injective hline])

section Routed

variable (h : Mirrors g s t) (hw : Wired g s.net) (hr : Routed s n p f) (hp : p ∈ g.ids)

include h hr in
theorem Routed.members (q : NodeId) :
    Alike (t.members q) ((n.members q).prepend (s.handed q)) :=
  (h.members q).trans ((hr.alike q).prepend _)

include h hr in
theorem Routed.proposals (q : NodeId) (v : Proposal) :
    copies n v.voter q (proposalLine v) = t.proposals.count (q, v) :=
  (hr.copies_eq v.voter q v).trans (h.proposals q v)

include h hw hr hp in
/-- A member that handles an ask answers it. -/
theorem Mirrors.answer (hn : Wired g n) {o : NodeId} (ho : (o, f) ∈ s.net.issued) {ask : Ask}
    (hask : askOf? f = some ask) (hother : agreementOf? f = none) :
    Mirrors g ((s.setNet n).answer p ask) (t.takeAsk p ask) := by
  obtain ⟨underWay, hasks⟩ := h.asks.route hw.nodup ho hp hr.new hask hr.issued hr.routed
  have hmember := hr.members h p
  have hreply : ((n.members p).answer ask).1 = ((t.members p).answer ask).1 :=
    congrArg (fun x : Sequencer => (x.onAsk ask).1) hmember.sequencer
  have hset : Standing g (n.setMember p ((n.members p).answer ask).2) :=
    hn.standing.setMember (Member.sameWires_answer _ ask)
  have hpeers : ((n.setMember p ((n.members p).answer ask).2).members p).peers
      = (n.members p).peers := by
    show (Function.update n.members p _ p).peers = _
    rw [Function.update_self]
    rfl
  -- Sending the answer issues and routes nothing.
  obtain ⟨hissued, hrouted⟩ := issued_startUnicast (n.setMember p ((n.members p).answer ask).2) p
    ask.sender .proposal (Record.encode ((n.members p).answer ask).1)
  refine ⟨.step h.reachable (.takeAsk (h.running hw.standing p) underWay), fun q => ?_,
    hasks.congr hissued hrouted,
    (h.agreements.route_other hother hr.issued hr.routed).congr hissued hrouted, fun q v => ?_,
    h.sent, h.told.route (hissued.trans hr.issued) (hrouted.trans hr.routed) rfl rfl ?_⟩
  · have hboth := hmember.answer ask
    rw [Member.prepend_answer] at hboth
    exact (alike_update (hr.members h) hboth q).trans ((alike_startUnicast q).prepend _)
  · have hbefore : copies (n.setMember p ((n.members p).answer ask).2) v.voter q (proposalLine v)
        = t.proposals.count (q, v) := by
      rw [copies_setMember fun _ => by rw [((n.members p).sameWires_answer ask).peers]]
      exact hr.proposals h q v
    have hlive : (n.members p).peers.isLive ask.sender = (t.members p).peers.isLive ask.sender :=
      hmember.isLive ask.sender
    have hvoter : ((n.members p).answer ask).1.voter = p :=
      (Sequencer.self_onAsk _ ask).1.trans (hn.standing.voter p)
    show copies (startUnicast (n.setMember p ((n.members p).answer ask).2) p ask.sender .proposal
        (Record.encode ((n.members p).answer ask).1)) v.voter q (proposalLine v)
      = (t.proposals ++ if (t.members p).peers.isLive ask.sender then
          [(ask.sender, ((t.members p).answer ask).1)] else []).count (q, v)
    rw [← hreply, ← hlive, List.count_append]
    cases hsender : (n.members p).peers.isLive ask.sender with
    | true => rw [copies_reply hset hvoter (by rw [hpeers]; exact hsender), hbefore, if_pos rfl]
    | false =>
      rw [startUnicast_of_not_live (by rw [hpeers]; exact hsender), hbefore,
        if_neg Bool.false_ne_true, List.count_nil, Nat.add_zero]
  · have hvote := (t.members p).sequencer.self_onAsk ask
    show (t.answered ++ [((t.members p).answer ask).1]).map (fun v => (v.voter, v.id)) = _
    rw [List.map_append, hask]
    refine congrArg (_ ++ [·]) (Prod.ext ?_ ?_)
    · exact hvote.1.trans (hmember.sequencer ▸ hn.standing.voter p)
    · exact (t.members p).sequencer.id_onAsk ask

include h hw hr hp in
/-- A member that handles an agreement adopts it. -/
theorem Mirrors.adopt {o : NodeId} (ho : (o, f) ∈ s.net.issued) {a : Agreement}
    (hother : askOf? f = none) (hagreement : agreementOf? f = some a) :
    Mirrors g ((s.setNet n).setMember p ((n.members p).adopt a)) (t.takeAgreement p a) := by
  obtain ⟨underWay, hagreements⟩ :=
    h.agreements.route hw.nodup ho hp hr.new hagreement hr.issued hr.routed
  refine ⟨.step h.reachable (.takeAgreement (h.running hw.standing p) underWay), fun q => ?_,
    (h.asks.route_other hother hr.issued hr.routed).congr rfl rfl, hagreements.congr rfl rfl,
    fun q v => ?_, h.sent, h.told.route hr.issued hr.routed rfl rfl ?_⟩
  · have hboth := (hr.members h p).adopt a
    rw [Member.prepend_adopt] at hboth
    exact alike_update (hr.members h) hboth q
  · show copies (n.setMember p ((n.members p).adopt a)) v.voter q (proposalLine v) = _
    rw [copies_setMember fun _ => by rw [((n.members p).sameWires_adopt a).peers]]
    exact hr.proposals h q v
  · rw [hother]
    exact (List.append_nil _).symm

include h hw hr hp in
/-- An envelope that is handled is one step, or none. -/
theorem Mirrors.handle (hn : Wired g n) {o : NodeId} (ho : (o, f) ∈ s.net.issued) :
    ∃ t', Mirrors g ((s.setNet n).handle p f) t' := by
  rcases handle_cases (s.setNet n) p f with
    ⟨ask, hask, hother, heq⟩ | ⟨a, hother, hagreement, heq⟩ | ⟨hask, hagreement, heq⟩
  · rw [heq]
    exact ⟨_, h.answer hw hr hp hn ho hask hother⟩
  · rw [heq]
    exact ⟨_, h.adopt hw hr hp ho hother hagreement⟩
  -- An envelope that holds neither changes nothing.
  · have hmembers := hr.members h
    have hproposals := hr.proposals h
    have htold : Told n t := by
      refine h.told.route hr.issued hr.routed rfl rfl ?_
      rw [hask]
      exact (List.append_nil _).symm
    rw [heq]
    exact ⟨t, h.reachable, hmembers, h.asks.route_other hask hr.issued hr.routed,
      h.agreements.route_other hagreement hr.issued hr.routed, hproposals, h.sent, htold⟩

end Routed

/-! ## Every step -/

/-- A multicast that is over is followed by what it was to be followed by. -/
theorem Mirrors.finish (h : Mirrors g s t) (hw : Wired g s.net) {x : Sending}
    {before after : List Sending} (sending : s.net.sendings = before ++ x :: after)
    (complete : x.targets = []) : ∃ t', Mirrors g (s.finish x (before ++ after)) t' := by
  cases hx : x.envelope with
  | none =>
    rw [finish_of_none hx]
    exact ⟨t, h.silent (fun _ => alike_refl _) rfl (routed_finish_of_none hx s.net _)
      fun _ _ _ => copies_finish sending complete⟩
  | some f =>
    rw [finish_of_some hx]
    have hhandled : (x.node, f) ∈ s.net.handled := List.mem_append_right _ (mem_pending sending hx)
    obtain ⟨o, ho⟩ := hw.routing.issued _ hhandled
    have hrouted := routed_finish hw sending complete hx
    exact h.handle hw hrouted (hw.handler _ hhandled) (hw.finished sending complete) ho

section Arrive

variable {before after : List Hop} {targets : List NodeId}

/-- A proposal that arrives is one step. -/
theorem Mirrors.takeProposal (h : Mirrors g s t) (hs : Standing g s.net) {v : Proposal}
    (underWay : s.net.underWay = before ++ ⟨v.voter, q, proposalLine v⟩ :: after) :
    Mirrors g
      ((s.setNet { s.net with underWay := before ++ after }).arrive q (proposalLine v) targets)
      (t.takeProposal q v) := by
  have hcount (r : NodeId) (w : Proposal) : copies s.net w.voter r (proposalLine w)
      = copies { s.net with underWay := before ++ after } w.voter r (proposalLine w)
        + if v.voter = w.voter ∧ q = r ∧ proposalLine v = proposalLine w then 1 else 0 :=
    copies_remove underWay
  have hmem : (q, v) ∈ t.proposals := by
    rw [← List.count_pos_iff, ← h.proposals, hcount, if_pos ⟨rfl, rfl, rfl⟩]
    omega
  rw [arrive_proposalLine]
  refine ⟨.step h.reachable (.takeProposal (h.running hs q) hmem), fun r => ?_,
    h.asks.congr rfl rfl, h.agreements.congr rfl rfl, fun r w => ?_, h.sent,
    h.told.congr rfl rfl rfl rfl rfl⟩
  · exact alike_update (n := s.net) h.members ((h.members q).collect v) r
  · show copies (Flooding.State.setMember { s.net with underWay := before ++ after } q
      ((s.net.members q).collect v)) w.voter r (proposalLine w)
        = (t.proposals.erase (q, v)).count (r, w)
    have hbefore := h.proposals r w
    rw [hcount] at hbefore
    refine (copies_setMember ?_).trans ?_
    · exact fun _ => rfl
    by_cases heq : (r, w) = (q, v)
    · obtain ⟨rfl, rfl⟩ := Prod.mk.inj heq
      rw [if_pos ⟨rfl, rfl, rfl⟩] at hbefore
      rw [List.count_erase_self]
      exact (Nat.sub_eq_of_eq_add hbefore.symm).symm
    · rw [List.count_erase_of_ne heq, ← hbefore, if_neg, Nat.add_zero]
      rintro ⟨-, rfl, hline⟩
      exact heq (by rw [proposalLine_injective hline])

/-- A line that arrives brings a member a proposal, or an envelope that it handles at once, or
    passes on first, or has seen before. -/
theorem Mirrors.arrive (h : Mirrors g s t) (hw : Wired g s.net) {k : Hop}
    (underWay : s.net.underWay = before ++ k :: after) :
    ∃ t', Mirrors g
      ((s.setNet { s.net with underWay := before ++ after }).arrive k.target k.line targets)
      t' := by
  obtain ⟨p, q, line⟩ := k
  have haround : s.net.Around p q line := (around_remove underWay).2 (Or.inr rfl)
  obtain ⟨-, hq⟩ := hw.ends p q line haround
  rcases hw.carried p q line haround with ⟨x, hx, rfl⟩ | ⟨v, rfl, rfl⟩
  -- The line of an envelope: no proposal is gone.
  · have hgone := copies_remove_lineOf underWay
    by_cases hseen : x.2.id ∈ (s.net.members q).received
    · rw [arrive_of_seen (s := s.setNet { s.net with underWay := before ++ after }) hseen]
      exact ⟨t, h.silent (fun _ => alike_refl _) rfl rfl hgone⟩
    · rw [arrive_of_new (s := s.setNet { s.net with underWay := before ++ after })
        (hw.standing.self q) hseen]
      split
      · rename_i hpq
        subst hpq
        exact h.handle hw (routed_arrive hw underWay hseen) hq (hw.route underWay hseen) hx
      · refine ⟨t, h.silent (fun r => ?_) rfl rfl fun a b v => ?_⟩
        · exact (alike_hear q x.2 r).trans (alike_startSending (some x.2) targets r)
        · have hheard :
              copies (Flooding.State.setMember { s.net with underWay := before ++ after } q
                (hear (s.net.members q) x.2)) a b (proposalLine v) = _ :=
            copies_setMember fun _ => rfl
          exact copies_startSending.trans (hheard.trans (hgone a b v))
  · exact ⟨_, h.takeProposal hw.standing underWay⟩

end Arrive

section Multicast

variable {targets : List NodeId}

theorem copies_multicast {a b : NodeId} {v : Proposal} :
    copies (n.multicast p f targets) a b (proposalLine v) = copies n a b (proposalLine v) :=
  copies_startSending

theorem alike_multicast (q : NodeId) :
    Alike (n.members q) ((n.multicast p f targets).members q) :=
  alike_startSending none targets q

theorem Mirrors.submit (h : Mirrors g s t) (hw : Wired g s.net) {id floodId : MessageId}
    {message : Message} (member : p ∈ g.ids) (fresh : ∀ x ∈ s.sent, x.1 ≠ id)
    (freshFlood : ∀ x ∈ s.net.issued, x.2.id ≠ floodId) :
    Mirrors g (s.submit p id floodId message targets)
      (t.submit g ⟨p, id, Record.encode message⟩) := by
  have hfresh : ∀ a ∈ t.asked, a.id ≠ id := by
    intro a ha
    have hmem : (a.id, a.body) ∈ s.sent.map fun x => (x.1, Record.encode x.2) := by
      rw [← h.sent]
      exact List.mem_map.2 ⟨a, ha, rfl⟩
    obtain ⟨x, hx, heq⟩ := List.mem_map.1 hmem
    exact (Prod.mk.inj heq).1 ▸ fresh x hx
  refine ⟨.step h.reachable (.submit member (h.running hw.standing p) hfresh), fun q => ?_,
    h.asks.issue hw freshFlood (askOf?_encode floodId _) rfl rfl,
    h.agreements.issue_other (agreementOf?_of_ask (ControlPath.ofText?_text .ask)) rfl rfl,
    fun q v => ?_, ?_, h.told.issue rfl rfl ?_ ?_ rfl⟩
  · exact (alike_update (n := s.net) h.members ((h.members p).openCollector id) q).trans
      ((alike_multicast q).prepend _)
  · refine copies_multicast.trans ((copies_setMember ?_).trans (h.proposals q v))
    exact fun _ => rfl
  · simp only [State.submit, Protocol.State.submit, List.map_append, List.map_singleton, h.sent]
  · rw [askOf?_encode]
    rfl
  · rw [agreementOf?_of_ask (ControlPath.ofText?_text .ask)]
    exact (List.append_nil _).symm

/-- A collection of votes goes on alike in both views. -/
theorem Mirrors.advance (h : Mirrors g s t) {c : Collector} {before after : List Collector}
    {r : Bool × Collector}
    (collecting : (s.net.members p).collectors = before ++ c :: after)
    (advanced : c.advance (s.net.members p).peers.liveIds (s.net.members p).peers.changes = r) :
    (t.members p).collectors = before ++ c :: after ∧
      c.advance (t.members p).peers.liveIds (t.members p).peers.changes = r := by
  have halike := h.members p
  have hcollectors : (s.net.members p).collectors = (t.members p).collectors := halike.collectors
  have hlive : (s.net.members p).peers.liveIds = (t.members p).peers.liveIds := halike.liveIds
  have hchanges : (s.net.members p).peers.changes = (t.members p).peers.changes := halike.changes
  rw [← hcollectors, ← hlive, ← hchanges]
  exact ⟨collecting, advanced⟩

theorem Mirrors.announce (h : Mirrors g s t) (hw : Wired g s.net) {c c' : Collector}
    {before after : List Collector} {floodId : MessageId} {a : Agreement}
    (collecting : (s.net.members p).collectors = before ++ c :: after)
    (advanced : c.advance (s.net.members p).peers.liveIds (s.net.members p).peers.changes
      = (true, c'))
    (agreement : c'.votes.agreement = some a) (fresh : ∀ x ∈ s.net.issued, x.2.id ≠ floodId) :
    Mirrors g (s.announce p (before ++ after) floodId a targets)
      (t.announce g p (before ++ after) a) := by
  obtain ⟨hcollecting, hadvanced⟩ := h.advance collecting advanced
  refine ⟨.step h.reachable (.announce (h.running hw.standing p) hcollecting hadvanced agreement),
    fun q => ?_,
    h.asks.issue_other (askOf?_of_agreement (ControlPath.ofText?_text .agreement)) rfl rfl,
    h.agreements.issue hw fresh (agreementOf?_encode floodId a) rfl rfl, fun q v => ?_, h.sent,
    h.told.issue rfl rfl ?_ ?_ rfl⟩
  · exact (alike_update (n := s.net) h.members ((h.members p).setCollectors _) q).trans
      ((alike_multicast q).prepend _)
  · refine copies_multicast.trans ((copies_setMember ?_).trans (h.proposals q v))
    exact fun _ => rfl
  · rw [askOf?_of_agreement (ControlPath.ofText?_text .agreement)]
    exact (List.append_nil _).symm
  · rw [agreementOf?_encode]
    rfl

end Multicast

/-- A member that changes without a word, in both views. -/
theorem Mirrors.setMember (h : Mirrors g s t) {m m' : Member}
    (next : Protocol.Step g t (t.setMember p m)) (hm : Alike m (m'.prepend (s.handed p)))
    (hpeers : m'.peers = (s.net.members p).peers) :
    Mirrors g (s.setMember p m') (t.setMember p m) := by
  refine ⟨.step h.reachable next, alike_update h.members hm, h.asks.congr rfl rfl,
    h.agreements.congr rfl rfl, fun q v => ?_, h.sent, h.told.congr rfl rfl rfl rfl rfl⟩
  refine (copies_setMember ?_).trans (h.proposals q v)
  exact fun _ => by rw [hpeers]

/-- What is handed over counts as released still. -/
theorem Mirrors.handOver (h : Mirrors g s t) {d : Delivery} {rest : List Delivery}
    (oldest : (s.net.members p).released = d :: rest) : Mirrors g (s.handOver p d rest) t := by
  refine ⟨h.reachable, fun q => ?_, h.asks.congr rfl rfl, h.agreements.congr rfl rfl,
    fun q v => ?_, h.sent, h.told.congr rfl rfl rfl rfl rfl⟩
  · show Alike _ (Member.prepend (Function.update s.net.members p _ q)
      (Function.update s.handed p _ q))
    have halike := h.members q
    by_cases hq : q = p
    · subst hq
      rw [Function.update_self, Function.update_self]
      have hsame : Member.prepend { s.net.members q with released := rest } (s.handed q ++ [d])
          = (s.net.members q).prepend (s.handed q) := by
        unfold Member.prepend
        dsimp only
        rw [oldest, List.append_assoc]
        rfl
      rw [hsame]
      exact halike
    · rw [Function.update_of_ne hq, Function.update_of_ne hq]
      exact halike
  · refine (copies_setMember ?_).trans (h.proposals q v)
    exact fun _ => rfl

theorem Move.mirrored (next : Move g s s') (h : Mirrors g s t) (hw : Wired g s.net) :
    ∃ t', Mirrors g s' t' := by
  cases next with
  | @enqueue x q rest before after sending next room =>
    have haround : s.net.Around x.node q x.line := by
      refine Or.inr (Or.inr ⟨x, (mem_iff_of_split sending).2 (Or.inl rfl), rfl, rfl, ?_⟩)
      rw [next]
      exact List.mem_cons_self ..
    have hread := hw.standing.reading x.node q (hw.ends _ _ _ haround).2
    exact ⟨t, h.silent (alike_enqueue x q _) rfl rfl
      fun _ _ _ => copies_enqueue sending next room hread⟩
  | finish sending complete => exact h.finish hw sending complete
  | write oldest =>
    exact ⟨t, h.silent (alike_write oldest) rfl rfl fun _ _ _ => copies_write oldest⟩
  | arrive underWay _ _ => exact h.arrive hw underWay
  | @goOn p _ _ _ _ collecting advanced =>
    obtain ⟨hcollecting, hadvanced⟩ := h.advance collecting advanced
    exact ⟨_, h.setMember (.goOn (h.running hw.standing p) hcollecting hadvanced)
      ((h.members p).setCollectors _) rfl⟩
  | announce _ collecting advanced agreement fresh _ =>
    exact ⟨_, h.announce hw collecting advanced agreement fresh⟩
  | @watch p =>
    have hboth := (h.members p).watchGroup
    rw [Member.prepend_watchGroup] at hboth
    exact ⟨_, h.setMember (.watch (h.running hw.standing p)) hboth
      (Member.sameWires_watchGroup _).peers⟩

theorem Step.mirrored (next : Step g s s') (h : Mirrors g s t) (hw : Wired g s.net) :
    ∃ t', Mirrors g s' t' := by
  cases next with
  | submit member fresh freshFlood _ => exact ⟨_, h.submit hw member fresh freshFlood⟩
  | move next => exact next.mirrored h hw
  | handOver oldest => exact ⟨t, h.handOver oldest⟩

/-- Whatever a group comes to on its lines, it comes to seen from outside. -/
theorem Reachable.mirrored (h : Reachable g s) : ∃ t, Mirrors g s t := by
  induction h with
  | init => exact ⟨_, mirrors_init g⟩
  | step reachable next ih =>
    obtain ⟨t, ht⟩ := ih
    exact next.mirrored ht reachable.wired

/-! ## What the one view says of the other -/

theorem Mirrors.numbersLeft_iff (h : Mirrors g s t) : t.NumbersLeft g ↔ s.NumbersLeft g := by
  have hsequencer (p : NodeId) : (s.net.members p).sequencer = (t.members p).sequencer :=
    (h.members p).sequencer
  simp only [Protocol.State.NumbersLeft, State.NumbersLeft, hsequencer]

/-- What a member has delivered is what it has handed over and what it has yet to. -/
theorem Mirrors.delivered (h : Mirrors g s t) (p : NodeId) :
    t.delivered p = s.handed p ++ (s.net.members p).released := (h.members p).released.symm

/-- On a quiet group's lines there is nothing. -/
theorem State.Quiet.not_around (hq : s.Quiet g) {a b : NodeId} {line : String} (ha : a ∈ g.ids)
    (hb : b ∈ g.ids) : ¬s.net.Around a b line := by
  rintro (h | h | ⟨x, hx, -⟩)
  · rw [hq.underWay] at h
    cases h
  · rw [hq.waiting a ha b hb] at h
    cases h
  · rw [hq.sendings] at hx
    cases hx

/-- In a quiet group every envelope was routed to every member. -/
theorem State.Quiet.routed (hq : s.Quiet g) (hw : Wired g s.net) :
    ∀ x ∈ s.net.issued, ∀ p ∈ g.ids, (p, x.2) ∈ s.net.routed := by
  intro x hx p hp
  have hpending : s.net.pending = [] := by
    rw [Flooding.State.pending, hq.sendings]
    rfl
  rcases hw.covered x hx p hp with hseen | haround
  · obtain ⟨f, hf, hid⟩ := hw.routing.handled p _ hseen
    obtain ⟨o, ho⟩ := hw.routing.issued _ hf
    rw [← List.inj_on_of_nodup_map hw.nodup ho hx hid]
    rw [Flooding.State.handled, hpending, List.append_nil] at hf
    exact hf
  · exact absurd haround (hq.not_around (hw.issuer x hx) hp)

/-- Nothing is on its way in one view if nothing is in the other. -/
theorem Mirrors.quiet (h : Mirrors g s t) (hw : Wired g s.net) (hq : s.Quiet g) : t.Quiet g := by
  have hrouted := hq.routed hw
  have hproposals : t.proposals = [] := by
    refine List.eq_nil_iff_forall_not_mem.2 fun x hx => ?_
    have hpos := List.count_pos_iff.2 hx
    rw [← h.proposals x.1 x.2, copies_eq_zero] at hpos
    · exact absurd hpos (Nat.lt_irrefl 0)
    · intro haround
      obtain ⟨ha, hb⟩ := hw.ends _ _ _ haround
      exact hq.not_around ha hb haround
  refine ⟨?_, ?_, ?_, fun p hp _ c hc => ?_⟩
  · rw [h.asks.eq_nil hrouted]
    exact List.forall_mem_nil _
  · rw [hproposals]
    exact List.forall_mem_nil _
  · rw [h.agreements.eq_nil hrouted]
    exact List.forall_mem_nil _
  · have hcollectors : (s.net.members p).collectors = (t.members p).collectors :=
      (h.members p).collectors
    exact hq.inboxes p hp c (hcollectors ▸ hc)

/-! ## What applications are handed -/

/-- Of any two members one has handed over the start of what the other has. -/
theorem Reachable.handed_prefix (h : Reachable g s) (hleft : s.NumbersLeft g) (p q : NodeId) :
    s.handed p <+: s.handed q ∨ s.handed q <+: s.handed p := by
  obtain ⟨t, ht⟩ := h.mirrored
  have hi := ht.reachable.invariant (ht.numbersLeft_iff.2 hleft)
  have hrun (r : NodeId) (_ : r ∈ g.ids) : t.Running r := ht.running h.wired.standing r
  have hp : s.handed p <+: t.delivered p := ⟨_, (ht.delivered p).symm⟩
  have hq : s.handed q <+: t.delivered q := ⟨_, (ht.delivered q).symm⟩
  rcases hi.delivered_prefix hrun p q with hpq | hqp
  · exact List.prefix_or_prefix_of_prefix (hp.trans hpq) hq
  · exact List.prefix_or_prefix_of_prefix hp (hq.trans hqp)

/-- Once nothing is on its way, every member has handed over exactly what was sent. -/
theorem Reachable.handed_perm (h : Reachable g s) (hleft : s.NumbersLeft g) (hq : s.Quiet g)
    (hp : p ∈ g.ids) : ((s.handed p).map fun d => (d.id, d.body)).Perm
      (s.sent.map fun x => (x.1, Record.encode x.2)) := by
  obtain ⟨t, ht⟩ := h.mirrored
  have hnumbers := ht.numbersLeft_iff.2 hleft
  have hi := ht.reachable.invariant hnumbers
  have hprogress := ht.reachable.progress hnumbers
  have hrun (r : NodeId) (_ : r ∈ g.ids) : t.Running r := ht.running h.wired.standing r
  have hsettled := hprogress.settled_of_running hi (ht.quiet h.wired hq) hrun
  have hperm := hsettled.delivered_perm hprogress hi hrun hp
  rw [ht.delivered, hq.released p hp, List.append_nil, ht.sent] at hperm
  exact hperm

end Stack

end AgreedOrder
