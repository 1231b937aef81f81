/-
  AgreedOrder.Proofs.Stack.Channels

  The lines from one member to another in the order in which they will arrive:
  those on the link, and then those in the queue. A line joins at the end when
  a multicast puts it into the queue, and leaves at the front when it arrives;
  nothing else changes the order.

    * `channel` — the lines from one member to another.
    * `channel_enqueue`, `channel_write`, `channel_remove` — operation by
      operation.
-/

import AgreedOrder.Proofs.Stack.Lines

namespace AgreedOrder.Stack

open Flooding (Sending Hop update_congr)

variable {n : Flooding.State} {p q a b : NodeId} {line : String}

/-- The lines on the link from one member to another, the oldest first. -/
def onLink (n : Flooding.State) (a b : NodeId) : List String :=
  (n.underWay.filter fun h => h.source = a ∧ h.target = b).map (·.line)

/-- The lines from one member to another, on the link and in the queue, the oldest first. -/
def channel (n : Flooding.State) (a b : NodeId) : List String :=
  onLink n a b ++ (n.members a).peers.waiting b

theorem mem_onLink : line ∈ onLink n a b ↔ ⟨a, b, line⟩ ∈ n.underWay := by
  simp only [onLink, List.mem_map, List.mem_filter, decide_eq_true_eq]
  constructor
  · rintro ⟨⟨source, target, l⟩, ⟨hmem, rfl, rfl⟩, rfl⟩
    exact hmem
  · intro hmem
    exact ⟨_, ⟨hmem, rfl, rfl⟩, rfl⟩

/-- A line on its way stands in its channel, or is still to be put there. -/
theorem around_iff : n.Around a b line ↔
    line ∈ channel n a b ∨ ∃ x ∈ n.sendings, x.node = a ∧ x.line = line ∧ b ∈ x.targets := by
  rw [channel, List.mem_append, mem_onLink, or_assoc]
  exact Iff.rfl

/-- A change of a member that leaves its queues alone moves no line. -/
theorem channel_setMember {m : Member}
    (h : ∀ q, m.peers.waiting q = (n.members p).peers.waiting q) :
    channel (n.setMember p m) a b = channel n a b :=
  congrArg (onLink n a b ++ ·) (update_congr (fun m => m.peers.waiting b) (h b) a)

/-- What channels hold depends on the members and the links. -/
theorem channel_congr {n' : Flooding.State} (hmembers : n'.members = n.members)
    (hunderWay : n'.underWay = n.underWay) : channel n' a b = channel n a b := by
  rw [channel, onLink, hmembers, hunderWay, channel, onLink]

/-- A multicast that starts has put no line into a queue yet. -/
theorem channel_startSending (body : Bytes) (envelope : Option Flood) (targets : List NodeId) :
    channel (n.startSending p body envelope targets) a b = channel n a b := by
  have hset : channel (n.setMember p { n.members p with
      peers := (n.members p).peers.countForAll ((n.members p).frameLine .reliable body) }) a b
        = channel n a b := channel_setMember fun _ => rfl
  exact (channel_congr rfl rfl).trans hset

theorem channel_multicast (f : Flood) (targets : List NodeId) :
    channel (n.multicast p f targets) a b = channel n a b := by
  have hstart : channel (n.startSending p (Json.Record.encode f) none targets) a b
      = channel n a b := channel_startSending ..
  exact (channel_congr rfl rfl).trans hstart

theorem channel_passOn (f : Flood) (body : Bytes) (targets : List NodeId) :
    channel (n.passOn p f body targets) a b = channel n a b := by
  have hstart : channel (n.startSending p body (some f) targets) a b = channel n a b :=
    channel_startSending ..
  exact (channel_congr rfl rfl).trans hstart

theorem channel_startUnicast (path : ControlPath) (body : Bytes) :
    channel (startUnicast n p q path body) a b = channel n a b := by
  cases hlive : (n.members p).peers.isLive q with
  | false => rw [startUnicast_of_not_live hlive]
  | true =>
    obtain ⟨t, ⟨houtboxes, -, -⟩, heq⟩ := startUnicast_of_live hlive path body
    have hwaiting (r : NodeId) : t.waiting r = (n.members p).peers.waiting r := by
      rw [PeerTable.waiting, PeerTable.waiting, houtboxes]
    have hset : channel (n.setMember p { n.members p with peers := t }) a b = channel n a b :=
      channel_setMember hwaiting
    rw [heq]
    exact (channel_congr rfl rfl).trans hset

/-- A line that is put into a queue that is read and has room joins at the end. -/
theorem channel_enqueue {x : Sending} {l : List Sending}
    (hroom : ((n.members x.node).peers.enqueue q x.line).1 ≠ .full)
    (hread : (n.members x.node).peers.hasReader q = true) :
    channel (n.enqueue x q l) a b
      = channel n a b ++ if x.node = a ∧ q = b then [x.line] else [] := by
  rw [channel, waiting_enqueue_of_room hroom hread, channel, List.append_assoc]
  rfl

/-- Writing moves the oldest line of a queue behind the newest one on the link. -/
theorem channel_write {l : String} {peers : PeerTable}
    (h : (n.members p).peers.takeLine q = (some (.line l), peers)) :
    channel (n.write p q l peers) a b = channel n a b := by
  obtain ⟨rest, hwaiting, -, -, hnow, -⟩ := PeerTable.takeLine_eq_line h
  have hmember : ((n.write p q l peers).members a).peers.waiting b
      = if a = p ∧ b = q then rest else (n.members a).peers.waiting b := by
    show (Function.update n.members p _ a).peers.waiting b = _
    by_cases ha : a = p
    · rw [ha, Function.update_self]
      dsimp only
      rw [hnow]
      simp only [true_and]
    · rw [Function.update_of_ne ha, if_neg fun h => ha h.1]
  have hlink : onLink (n.write p q l peers) a b
      = onLink n a b ++ if a = p ∧ b = q then [l] else [] := by
    simp only [onLink, Flooding.State.write, List.filter_append, List.map_append]
    by_cases hab : a = p ∧ b = q
    · obtain ⟨rfl, rfl⟩ := hab
      simp
    · rw [if_neg hab, List.filter_singleton, decide_eq_false fun h => hab ⟨h.1.symm, h.2.symm⟩]
      rfl
  rw [channel, channel, hmember, hlink]
  by_cases hab : a = p ∧ b = q
  · rw [if_pos hab, if_pos hab, hab.1, hab.2, hwaiting, List.append_assoc]
    rfl
  · rw [if_neg hab, if_neg hab, List.append_nil]

/-- The oldest line of a link is the one that leaves at the front. -/
theorem channel_remove {h : Hop} {before after : List Hop}
    (underWay : n.underWay = before ++ h :: after)
    (oldest : ∀ k ∈ before, k.source ≠ h.source ∨ k.target ≠ h.target) :
    channel n a b = (if h.source = a ∧ h.target = b then [h.line] else [])
      ++ channel { n with underWay := before ++ after } a b := by
  have hlink : onLink n a b = (if h.source = a ∧ h.target = b then [h.line] else [])
      ++ onLink { n with underWay := before ++ after } a b := by
    simp only [onLink, underWay, List.filter_append, List.map_append, List.filter_cons]
    by_cases hab : h.source = a ∧ h.target = b
    -- No older line stands on this link.
    · have hnone : before.filter (fun k => k.source = a ∧ k.target = b) = [] := by
        refine List.filter_eq_nil_iff.2 fun k hk => ?_
        rw [decide_eq_true_eq, ← hab.1, ← hab.2]
        exact fun heq => (oldest k hk).elim (· heq.1) (· heq.2)
      rw [hnone, if_pos hab, if_pos (decide_eq_true hab)]
      rfl
    · rw [if_neg hab, if_neg (by rwa [decide_eq_true_eq])]
      rfl
  rw [channel, hlink, channel, List.append_assoc]

end AgreedOrder.Stack
