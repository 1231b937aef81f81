/-
  AgreedOrder.Proofs.Stack.Lines

  The lines that carry proposals. They stand in the same queues as the lines
  that carry envelopes, and a line is never both. A proposal goes to one
  member, so what matters of its line is how often it is on its way.

    * `proposalLine` — the line of a proposal, and what comes of it.
    * `copies` — how often a line is on its way, operation by operation.
-/

import AgreedOrder.Proofs.Flooding.Termination
import AgreedOrder.Proofs.Sending
import AgreedOrder.Proofs.Stack.Step

namespace AgreedOrder

open Json

theorem PeerTable.exists_countFor {t : PeerTable} {id : NodeId} (h : t.isLive id = true)
    (line : String) : ∃ t', t.countFor id line = .ok t' := by
  obtain ⟨peer, hpeer⟩ := Option.isSome_iff_exists.1 h
  unfold countFor
  rw [hpeer]
  exact ⟨_, rfl⟩

namespace Stack

open Flooding (Sending Hop total total_append total_eq_zero lineOf hear decode?_lineOf
  takeIn_encode update_congr around_setMember)

variable {n : Flooding.State} {p q a b : NodeId} {line : String}

/-! ## What a line holds -/

/-- The line with which a member sends a proposal. -/
def proposalLine (v : Proposal) : String :=
  Record.encodeText (Frame.mk v.voter ControlPath.proposal.text (Record.encode v))

theorem decode?_proposalLine (v : Proposal) :
    (Record.decode? (Bytes.ofText (proposalLine v)) : Option Frame)
      = some ⟨v.voter, ControlPath.proposal.text, Record.encode v⟩ := Record.decode?_encode _

theorem proposalLine_injective {v w : Proposal} (h : proposalLine v = proposalLine w) : v = w := by
  have hframe := decode?_proposalLine v
  rw [h, decode?_proposalLine] at hframe
  have hbody : Record.encode w = Record.encode v := (Frame.mk.inj (Option.some.inj hframe)).2.2
  have hdecode := Record.decode?_encode v
  rw [← hbody, Record.decode?_encode] at hdecode
  exact (Option.some.inj hdecode).symm

/-- A line on the reliable path is not that of a proposal. -/
theorem reliable_ne_proposalLine (p : NodeId) (body : Bytes) (v : Proposal) :
    Record.encodeText (Frame.mk p ControlPath.reliable.text body) ≠ proposalLine v := by
  intro h
  have hframe : (Record.decode? (Record.encode (Frame.mk p ControlPath.reliable.text body)) :
      Option Frame) = some ⟨p, ControlPath.reliable.text, body⟩ := Record.decode?_encode _
  rw [Record.encode, h, decode?_proposalLine] at hframe
  have hpath := (Frame.mk.inj (Option.some.inj hframe)).2.1
  have hctrl := ControlPath.ofText?_text .proposal
  rw [hpath, ControlPath.ofText?_text] at hctrl
  cases hctrl

theorem lineOf_ne_proposalLine (p : NodeId) (f : Flood) (v : Proposal) :
    lineOf p f ≠ proposalLine v := reliable_ne_proposalLine p _ v

theorem frameLine_proposal {m : Member} {v : Proposal} (hself : m.self = v.voter) :
    m.frameLine .proposal (Record.encode v) = proposalLine v := by
  unfold Member.frameLine proposalLine
  rw [hself]

/-- The line of a proposal brings the proposal to the collections of votes. -/
theorem arrive_proposalLine (s : State) (q : NodeId) (v : Proposal) (targets : List NodeId) :
    s.arrive q (proposalLine v) targets = s.setMember q ((s.net.members q).collect v) := by
  unfold State.arrive
  rw [decode?_proposalLine]
  dsimp only
  rw [ControlPath.ofText?_text]
  dsimp only
  unfold Member.onProposal Member.collect
  rw [Record.decode?_encode]

/-- The line of an envelope brings the envelope. -/
theorem arrive_lineOf (s : State) (p q : NodeId) (f : Flood) (targets : List NodeId) :
    s.arrive q (lineOf p f) targets
      = s.receive q ⟨p, ControlPath.reliable.text, Record.encode f⟩ targets := by
  unfold State.arrive
  rw [decode?_lineOf]
  dsimp only
  rw [ControlPath.ofText?_text]

/-- An envelope that was seen before changes nothing. -/
theorem arrive_of_seen {s : State} {f : Flood} {targets : List NodeId}
    (h : f.id ∈ (s.net.members q).received) : s.arrive q (lineOf p f) targets = s := by
  rw [arrive_lineOf, State.receive, takeIn_encode, if_pos h]

/-- A new envelope is handled at once if it comes from the member itself, and passed on if not. -/
theorem arrive_of_new {s : State} {f : Flood} {targets : List NodeId}
    (hself : (s.net.members q).self = q) (h : f.id ∉ (s.net.members q).received) :
    s.arrive q (lineOf p f) targets =
      if p = q then
        (s.setNet ((s.net.setMember q (hear (s.net.members q) f)).route q f)).handle q f
      else
        s.setNet ((s.net.setMember q (hear (s.net.members q) f)).passOn q f (Record.encode f)
          targets) := by
  rw [arrive_lineOf, State.receive, takeIn_encode, if_neg h]
  dsimp only
  rw [show (hear (s.net.members q) f).self = q from hself]

/-! ## Starting to send -/

/-- To a live member one more line is sent; the counters change, and the queues do not. -/
theorem startUnicast_of_live (h : (n.members p).peers.isLive q = true) (path : ControlPath)
    (body : Bytes) :
    ∃ t : PeerTable, (t.outboxes = (n.members p).peers.outboxes ∧
        t.changes = (n.members p).peers.changes ∧
        ∀ r, t.isLive r = (n.members p).peers.isLive r) ∧
      startUnicast n p q path body = { n.setMember p { n.members p with peers := t } with
        sendings := n.sendings ++ [⟨p, (n.members p).frameLine path body, [q], none⟩] } := by
  obtain ⟨t, ht⟩ := PeerTable.exists_countFor h ((n.members p).frameLine path body)
  refine ⟨t, ⟨PeerTable.outboxes_countFor ht, (PeerTable.isLive_countFor ht q).2,
    fun r => (PeerTable.isLive_countFor ht r).1⟩, ?_⟩
  unfold startUnicast
  dsimp only
  rw [ht]

/-- To a member that does not count as live nothing is sent. -/
theorem startUnicast_of_not_live (h : (n.members p).peers.isLive q = false) (path : ControlPath)
    (body : Bytes) : startUnicast n p q path body = n := by
  unfold startUnicast
  dsimp only
  rw [PeerTable.countFor_of_not_live h]

/-- What was said so far stays as it is. -/
theorem issued_startUnicast (n : Flooding.State) (p q : NodeId) (path : ControlPath)
    (body : Bytes) : (startUnicast n p q path body).issued = n.issued ∧
      (startUnicast n p q path body).routed = n.routed := by
  unfold startUnicast
  dsimp only
  split <;> exact ⟨rfl, rfl⟩

theorem around_startUnicast (h : (n.members p).peers.isLive q = true) (path : ControlPath)
    (body : Bytes) : (startUnicast n p q path body).Around a b line ↔ n.Around a b line ∨
      a = p ∧ b = q ∧ line = (n.members p).frameLine path body := by
  obtain ⟨t, ⟨houtboxes, -, -⟩, heq⟩ := startUnicast_of_live h path body
  have hold : (n.setMember p { n.members p with peers := t }).Around a b line ↔
      n.Around a b line :=
    around_setMember fun r => by rw [PeerTable.waiting, PeerTable.waiting, houtboxes]
  rw [heq, ← hold]
  unfold Flooding.State.Around
  simp only [mem_append_singleton]
  constructor
  · rintro (h | h | ⟨x, hx | rfl, hnode, hline, hq⟩)
    · exact Or.inl (Or.inl h)
    · exact Or.inl (Or.inr (Or.inl h))
    · exact Or.inl (Or.inr (Or.inr ⟨x, hx, hnode, hline, hq⟩))
    · exact Or.inr ⟨hnode.symm, List.mem_singleton.1 hq, hline.symm⟩
  · rintro ((h | h | ⟨x, hx, hrest⟩) | ⟨rfl, rfl, rfl⟩)
    · exact Or.inl h
    · exact Or.inr (Or.inl h)
    · exact Or.inr (Or.inr ⟨x, Or.inl hx, hrest⟩)
    · exact Or.inr (Or.inr ⟨_, Or.inr rfl, rfl, rfl, List.mem_singleton_self _⟩)

/-! ## How often a line is on its way -/

/-- The lines from one member to another that are still to be put into a queue, wait there, or
    stand on the link. -/
def copies (n : Flooding.State) (a b : NodeId) (line : String) : Nat :=
  total (fun x => if x.node = a ∧ x.line = line then x.targets.count b else 0) n.sendings
    + ((n.members a).peers.waiting b).count line
    + total (fun h => if h.source = a ∧ h.target = b ∧ h.line = line then 1 else 0) n.underWay

/-- A change of a member that leaves its queues alone moves no line. -/
theorem copies_setMember {m : Member}
    (h : ∀ q, m.peers.waiting q = (n.members p).peers.waiting q) :
    copies (n.setMember p m) a b line = copies n a b line := by
  have hwaiting : ((n.setMember p m).members a).peers.waiting b
      = (n.members a).peers.waiting b := update_congr (fun m => m.peers.waiting b) (h b) a
  unfold copies
  rw [hwaiting]
  rfl

/-- A sending that starts adds its own line only. -/
theorem copies_append (x : Sending) : copies { n with sendings := n.sendings ++ [x] } a b line
    = copies n a b line + if x.node = a ∧ x.line = line then x.targets.count b else 0 := by
  unfold copies
  dsimp only
  rw [total_append, total, total]
  omega

theorem copies_startUnicast (h : (n.members p).peers.isLive q = true) (path : ControlPath)
    (body : Bytes) : copies (startUnicast n p q path body) a b line = copies n a b line +
      if p = a ∧ (n.members p).frameLine path body = line ∧ q = b then 1 else 0 := by
  obtain ⟨t, ⟨houtboxes, -, -⟩, heq⟩ := startUnicast_of_live h path body
  rw [heq]
  refine (copies_append (n := n.setMember p { n.members p with peers := t })
    ⟨p, (n.members p).frameLine path body, [q], none⟩).trans ?_
  rw [copies_setMember fun r => by rw [PeerTable.waiting, PeerTable.waiting, houtboxes]]
  dsimp only
  rw [List.count_singleton]
  by_cases hq : q = b
  · simp [hq]
  · simp [hq]

/-- A multicast adds no proposal. -/
theorem copies_startSending {body : Bytes} {envelope : Option Flood} {targets : List NodeId}
    {v : Proposal} : copies (n.startSending p body envelope targets) a b (proposalLine v)
      = copies n a b (proposalLine v) := by
  refine (copies_append (n := n.setMember p { n.members p with
    peers := (n.members p).peers.countForAll ((n.members p).frameLine .reliable body) }) _).trans ?_
  rw [if_neg fun heq => reliable_ne_proposalLine _ body v heq.2, Nat.add_zero]
  exact copies_setMember fun _ => rfl

section Split

variable {x : Sending} {before after : List Sending}

theorem copies_of_split (hs : n.sendings = before ++ x :: after) :
    copies n a b line = copies { n with sendings := before ++ after } a b line
      + if x.node = a ∧ x.line = line then x.targets.count b else 0 := by
  unfold copies
  rw [hs]
  simp only [total_append, total]
  omega

/-- A sending that is over has no line left. -/
theorem copies_finish (hs : n.sendings = before ++ x :: after) (hx : x.targets = []) :
    copies (n.finish x (before ++ after)) a b line = copies n a b line := by
  rw [copies_of_split hs, hx, List.count_nil, ite_self, Nat.add_zero]
  rfl

/-- A line that is put into a queue that is read and has room waits there. -/
theorem waiting_enqueue_of_room {l : List Sending}
    (hroom : ((n.members x.node).peers.enqueue q x.line).1 ≠ .full)
    (hread : (n.members x.node).peers.hasReader q = true) :
    ((n.enqueue x q l).members a).peers.waiting b = (n.members a).peers.waiting b ++
      if x.node = a ∧ q = b then [x.line] else [] := by
  show (Function.update n.members x.node _ a).peers.waiting b = _
  by_cases ha : a = x.node
  · rw [ha, Function.update_self]
    dsimp only
    rcases (n.members x.node).peers.enqueue_cases q x.line with
      ⟨box, hbox, -, heq⟩ | ⟨r, hr, heq, hclosed⟩
    · rw [heq, PeerTable.waiting_pushLine hbox]
      by_cases hb : b = q
      · rw [if_pos hb, if_pos ⟨rfl, hb.symm⟩]
      · rw [if_neg hb, if_neg fun h => hb h.2.symm, List.append_nil]
    -- A queue that is read does not turn a line away, unless it is full.
    · rw [heq] at hroom
      cases r with
      | queued => exact absurd rfl hr
      | full => exact absurd rfl hroom
      | closed =>
        rw [hclosed rfl] at hread
        cases hread
  · rw [Function.update_of_ne ha, if_neg fun h => ha h.1.symm, List.append_nil]

theorem copies_enqueue {rest : List NodeId} (hs : n.sendings = before ++ x :: after)
    (hx : x.targets = q :: rest) (hroom : ((n.members x.node).peers.enqueue q x.line).1 ≠ .full)
    (hread : (n.members x.node).peers.hasReader q = true) :
    copies (n.enqueue x q (before ++ { x with targets := rest } :: after)) a b line
      = copies n a b line := by
  -- What the multicast has less to put into queues waits in one of them.
  have hcount : (if x.node = a ∧ q = b then [x.line] else []).count line
      = if x.node = a ∧ x.line = line then if q = b then 1 else 0 else 0 := by
    by_cases hq : q = b
    · by_cases hline : x.line = line <;> by_cases ha : x.node = a <;> simp [hq, hline, ha]
    · simp [hq]
  rw [copies_of_split hs, copies_of_split (n := n.enqueue x q _) rfl, hx, List.count_cons]
  unfold copies
  rw [waiting_enqueue_of_room hroom hread, List.count_append, hcount]
  simp only [Flooding.State.enqueue, Flooding.State.setMember, beq_iff_eq]
  split <;> omega

end Split

/-- Writing moves a line from a queue to a link. -/
theorem copies_write {l : String} {peers : PeerTable}
    (h : (n.members p).peers.takeLine q = (some (.line l), peers)) :
    copies (n.write p q l peers) a b line = copies n a b line := by
  obtain ⟨rest, hwaiting, -, -, hnow, -⟩ := PeerTable.takeLine_eq_line h
  have hmember : ((n.write p q l peers).members a).peers.waiting b
      = if a = p ∧ b = q then rest else (n.members a).peers.waiting b := by
    show (Function.update n.members p _ a).peers.waiting b = _
    by_cases ha : a = p
    · rw [ha, Function.update_self]
      dsimp only
      rw [hnow]
      simp only [true_and]
    · rw [Function.update_of_ne ha, if_neg fun h => ha h.1]
  unfold copies
  rw [hmember]
  simp only [Flooding.State.write, Flooding.State.setMember, total_append, total]
  by_cases hab : a = p ∧ b = q
  · obtain ⟨rfl, rfl⟩ := hab
    rw [if_pos ⟨rfl, rfl⟩, hwaiting, List.count_cons]
    simp only [true_and, beq_iff_eq]
    omega
  · rw [if_neg hab, if_neg fun h => hab ⟨h.1.symm, h.2.1.symm⟩]
    rfl

/-- A line that leaves its link is gone. -/
theorem copies_remove {h : Hop} {before after : List Hop}
    (hs : n.underWay = before ++ h :: after) :
    copies n a b line = copies { n with underWay := before ++ after } a b line
      + if h.source = a ∧ h.target = b ∧ h.line = line then 1 else 0 := by
  unfold copies
  rw [hs]
  simp only [total_append, total]
  omega

/-- What is not on its way is so not even once. -/
theorem copies_eq_zero (h : ¬n.Around a b line) : copies n a b line = 0 := by
  have hwaiting : ((n.members a).peers.waiting b).count line = 0 :=
    List.count_eq_zero_of_not_mem fun hmem => h (Or.inr (Or.inl hmem))
  unfold copies
  rw [total_eq_zero, hwaiting, total_eq_zero]
  · rintro ⟨source, target, l⟩ hx
    refine if_neg ?_
    rintro ⟨rfl, rfl, rfl⟩
    exact h (Or.inl hx)
  · intro x hx
    split
    · rename_i heq
      exact List.count_eq_zero_of_not_mem fun hb => h (Or.inr (Or.inr ⟨x, hx, heq.1, heq.2, hb⟩))
    · rfl

end Stack

end AgreedOrder
