/-
  AgreedOrder.Proofs.Bank.Quorum

  The group of a node of the bank, from its table to the votes that it waits
  for. The table may list an id more than once, and the node itself or not; the
  group holds every id once, with the address it was first given, and the node
  itself, last and under the machine's own address if nobody listed it. Each
  member of the group gets one queue, and their votes are the ones needed.

    * `Config.mem_firstById_iff`, `Config.pairwise_firstById` — the first node
      of each id, in order.
    * `membership_groupConfig` — the group of a node of the bank.
    * `PeerTable.get?_foldl_add` — what members are registered as.
    * `group_is_quorum` — all of it.
-/

import AgreedOrder.Bank.NodeTable
import AgreedOrder.Proofs.PeerTable
import AgreedOrder.Proofs.Votes
import Mathlib.Data.List.Dedup

namespace AgreedOrder

/-! ## Each id once -/

namespace Config

variable {n : Node} {ns : List Node}

/-- A node is kept if it is the first one with its id. -/
theorem mem_firstById_iff : n ∈ firstById ns ↔ ns.find? (·.id == n.id) = some n := by
  induction ns with
  | nil => simp [firstById]
  | cons m rest ih =>
    rw [firstById, List.mem_cons, List.mem_filter, ih, List.find?_cons]
    by_cases hid : m.id = n.id
    · simp [hid, eq_comm]
    · simp only [beq_eq_false_iff_ne.2 hid]
      constructor
      · rintro (rfl | ⟨hfind, -⟩)
        · exact absurd rfl hid
        · exact hfind
      · exact fun hfind => Or.inr ⟨hfind, decide_eq_true (Ne.symm hid)⟩

/-- No id gets lost. -/
theorem mem_ids_firstById (ns : List Node) (q : NodeId) :
    q ∈ (firstById ns).map (·.id) ↔ q ∈ ns.map (·.id) := by
  simp only [List.mem_map]
  constructor
  · rintro ⟨n, hn, rfl⟩
    exact ⟨n, List.mem_of_find?_eq_some (mem_firstById_iff.1 hn), rfl⟩
  · rintro ⟨n, hn, rfl⟩
    obtain ⟨m, hm⟩ := Option.isSome_iff_exists.1
      (List.find?_isSome (p := fun m : Node => m.id == n.id).2 ⟨n, hn, by simp⟩)
    have hid : m.id = n.id := by simpa using List.find?_some hm
    exact ⟨m, mem_firstById_iff.2 (by rw [hid]; exact hm), hid⟩

/-- The nodes that are kept stand in the order in which their ids occurred first. -/
theorem pairwise_firstById (ns : List Node) : (firstById ns).Pairwise fun a b =>
    (ns.map (·.id)).idxOf a.id < (ns.map (·.id)).idxOf b.id := by
  induction ns with
  | nil => exact List.Pairwise.nil
  | cons m rest ih =>
    have hother {n : Node} (h : n ∈ (firstById rest).filter fun n => n.id ≠ m.id) : n.id ≠ m.id :=
      of_decide_eq_true (List.mem_filter.1 h).2
    rw [firstById, List.map_cons, List.pairwise_cons]
    refine ⟨fun b hb => ?_, (ih.sublist List.filter_sublist).imp_of_mem fun ha hb hab => ?_⟩
    · rw [List.idxOf_cons_self, List.idxOf_cons_ne _ (Ne.symm (hother hb))]
      exact Nat.succ_pos _
    · rw [List.idxOf_cons_ne _ (Ne.symm (hother ha)), List.idxOf_cons_ne _ (Ne.symm (hother hb))]
      exact Nat.succ_lt_succ hab

theorem nodup_ids_firstById (ns : List Node) : ((firstById ns).map (·.id)).Nodup := by
  rw [List.nodup_iff_pairwise_ne, List.pairwise_map]
  refine (pairwise_firstById ns).imp fun {a b} hlt heq => ?_
  rw [heq] at hlt
  exact Nat.lt_irrefl _ hlt

theorem firstById_of_nodup (h : (ns.map (·.id)).Nodup) : firstById ns = ns := by
  induction ns with
  | nil => rfl
  | cons m rest ih =>
    rw [List.map_cons, List.nodup_cons] at h
    have hother : ∀ n ∈ rest, decide (n.id ≠ m.id) = true := fun n hn =>
      decide_eq_true fun hid => h.1 (hid ▸ List.mem_map_of_mem hn)
    rw [firstById, ih h.2, List.filter_eq_self.2 hother]

theorem addMissing_of_mem (h : n.id ∈ ns.map (·.id)) : addMissing n ns = ns := by
  obtain ⟨m, hm, hid⟩ := List.mem_map.1 h
  exact if_pos (List.any_eq_true.2 ⟨m, hm, by simpa using hid⟩)

theorem addMissing_of_not_mem (h : n.id ∉ ns.map (·.id)) : addMissing n ns = ns ++ [n] := by
  refine if_neg fun hany => h ?_
  obtain ⟨m, hm, hid⟩ := List.any_eq_true.1 hany
  exact List.mem_map.2 ⟨m, hm, by simpa using hid⟩

/-- A node behind the others is kept if none of them has its id. -/
theorem firstById_append_singleton (ns : List Node) (n : Node) :
    firstById (ns ++ [n]) = addMissing n (firstById ns) := by
  induction ns with
  | nil => rfl
  | cons m rest ih =>
    rw [List.cons_append, firstById, firstById, ih]
    by_cases hrest : n.id ∈ (firstById rest).map (·.id)
    · rw [addMissing_of_mem hrest, addMissing_of_mem]
      obtain ⟨k, hk, hid⟩ := List.mem_map.1 hrest
      by_cases hkm : k.id = m.id
      · simp [← hid, hkm]
      · rw [List.map_cons, List.mem_cons]
        exact Or.inr (List.mem_map.2 ⟨k, List.mem_filter.2 ⟨hk, decide_eq_true hkm⟩, hid⟩)
    · rw [addMissing_of_not_mem hrest, List.filter_append]
      by_cases hnm : n.id = m.id
      -- The first node has the id of the one behind, which is dropped.
      · rw [addMissing_of_mem (by simp [hnm]), List.filter_singleton]
        simp [hnm]
      · rw [addMissing_of_not_mem, List.filter_singleton]
        · simp [hnm]
        · rw [List.map_cons, List.mem_cons, not_or]
          exact ⟨hnm, fun h => hrest ((List.filter_sublist.map _).mem h)⟩

/-- The node itself is a member. -/
theorem self_mem_membership (c : Config) : c.self ∈ c.membership.map (·.id) := by
  unfold membership
  by_cases h : c.self ∈ (firstById c.members).map (·.id)
  · rw [addMissing_of_mem h]
    exact h
  · rw [addMissing_of_not_mem h]
    simp

theorem membership_eq (c : Config) : c.membership = firstById (c.members ++ [⟨c.self, c.bind⟩]) :=
  (firstById_append_singleton ..).symm

theorem nodup_ids_membership (c : Config) : (c.membership.map (·.id)).Nodup := by
  rw [membership_eq]
  exact nodup_ids_firstById _

/-- A group that is configured as it is stays as it is. -/
theorem membership_membership (c : Config) :
    { c with members := c.membership }.membership = c.membership := by
  show addMissing ⟨c.self, c.bind⟩ (firstById c.membership) = c.membership
  rw [firstById_of_nodup c.nodup_ids_membership, addMissing_of_mem c.self_mem_membership]

end Config

/-! ## The bank's group -/

namespace Bank

open Config

/-- A node of the bank under the machine's own address. -/
def own (self : NodeId) (port : UInt16) : Node := ⟨self, .v4 .loopback port⟩

/-- The group is that of the table with the node itself behind it. -/
theorem membership_groupConfig (self : NodeId) (port : UInt16) (table : List Node) :
    (groupConfig self port table).membership = firstById (table ++ [own self port]) := by
  have hmembers : firstById (addMissing (own self port) table)
      = firstById (table ++ [own self port]) := by
    by_cases h : self ∈ table.map (·.id)
    · rw [firstById_append_singleton, addMissing_of_mem (n := own self port) h,
        addMissing_of_mem (n := own self port) ((mem_ids_firstById table self).2 h)]
    · rw [addMissing_of_not_mem (n := own self port) h]
  show addMissing _ (firstById (addMissing (own self port) table)) = _
  rw [hmembers, addMissing_of_mem]
  rw [mem_ids_firstById]
  simp [own, groupConfig, standard]

end Bank

/-! ## Registered members -/

namespace PeerTable

/-- Members of different ids are registered as they are, each with a queue of its own, and what was
    registered under other ids stays. -/
theorem get?_foldl_add {nodes : List Node} (hnodup : (nodes.map (·.id)).Nodup) (capacity : Nat)
    (t : PeerTable) (q : NodeId) :
    (nodes.foldl (fun t n => t.add n capacity) t).peers.get? q
        = ((nodes.find? (·.id == q)).map fun n => ⟨n, false, 0, 0⟩).or (t.peers.get? q) ∧
      (nodes.foldl (fun t n => t.add n capacity) t).outboxes.get? q
        = ((nodes.find? (·.id == q)).map fun _ => Outbox.init capacity).or (t.outboxes.get? q) := by
  induction nodes generalizing t with
  | nil => exact ⟨rfl, rfl⟩
  | cons n rest ih =>
    rw [List.map_cons, List.nodup_cons] at hnodup
    obtain ⟨hpeers, houtboxes⟩ := ih hnodup.2 (t.add n capacity)
    rw [List.foldl_cons, hpeers, houtboxes, add, SortedMap.get?_insert_eq_ite,
      SortedMap.get?_insert_eq_ite, List.find?_cons]
    by_cases hq : q = n.id
    -- No later member has the id of the first.
    · have hnone : rest.find? (·.id == q) = none := by
        rw [List.find?_eq_none]
        intro m hm hid
        exact hnodup.1 (hq ▸ beq_iff_eq.1 hid ▸ List.mem_map_of_mem hm)
      rw [hnone, if_pos hq, if_pos hq, hq, beq_self_eq_true]
      exact ⟨rfl, rfl⟩
    · rw [if_neg hq, if_neg hq, beq_eq_false_iff_ne.2 (Ne.symm hq)]
      exact ⟨rfl, rfl⟩

/-- A member whose id nobody before it has takes no queue from anybody. -/
theorem replacedBy_foldl_add {nodes : List Node} (hnodup : (nodes.map (·.id)).Nodup)
    {before after : List Node} {n : Node} (h : nodes = before ++ n :: after) (capacity : Nat) :
    (before.foldl (fun t n => t.add n capacity) empty).replacedBy n.id = none := by
  rw [h, List.map_append, List.nodup_append] at hnodup
  have hnone : before.find? (·.id == n.id) = none := by
    rw [List.find?_eq_none]
    intro m hm hid
    exact hnodup.2.2 m.id (List.mem_map_of_mem hm) n.id (by simp) (by simpa using hid)
  unfold replacedBy
  rw [(get?_foldl_add hnodup.1 capacity empty n.id).2, hnone]
  rfl

end PeerTable

namespace Member

/-- The members of the group are registered, each with a queue of its own, and nobody else is. -/
theorem get?_ofConfig (c : Config) (q : NodeId) :
    (ofConfig c).peers.peers.get? q
        = (c.membership.find? (·.id == q)).map (fun n => Peer.mk n false 0 0) ∧
      (ofConfig c).peers.outboxes.get? q
        = (c.membership.find? (·.id == q)).map fun _ => Outbox.init c.outboundCapacity := by
  obtain ⟨hpeers, houtboxes⟩ :=
    PeerTable.get?_foldl_add c.nodup_ids_membership c.outboundCapacity .empty q
  exact ⟨hpeers.trans (Option.or_none ..), houtboxes.trans (Option.or_none ..)⟩

theorem mem_liveIds_ofConfig (c : Config) (q : NodeId) :
    q ∈ (ofConfig c).peers.liveIds ↔ q ∈ c.membership.map (·.id) := by
  rw [PeerTable.mem_liveIds]
  exact isLive_init c.self c.membership c.outboundCapacity q

/-- As many members are live as there are ids in the group. -/
theorem liveCount_ofConfig {c : Config} {ids : List NodeId}
    (h : ∀ q, q ∈ c.membership.map (·.id) ↔ q ∈ ids) :
    (ofConfig c).peers.liveCount = ids.dedup.length := by
  have hperm : (ofConfig c).peers.liveIds.Perm ids.dedup :=
    (List.perm_ext_iff_of_nodup (PeerTable.nodup_liveIds _) ids.nodup_dedup).2 fun q => by
      rw [mem_liveIds_ofConfig, h, List.mem_dedup]
  rw [← hperm.length_eq]
  exact (List.length_map ..).symm

end Member

namespace Votes

/-- Votes on a message that were counted cover the members that cast one. -/
theorem covers_foldl_record (ps : List Proposal) (v : Votes) (live : List NodeId) :
    (ps.foldl record v).covers live = true ↔
      ∀ q ∈ live, v.numbers.contains q = true ∨ ∃ p ∈ ps, p.id = v.id ∧ p.voter = q := by
  have hcontains (q : NodeId) : (ps.foldl record v).numbers.contains q = true ↔
      v.numbers.contains q = true ∨ ∃ p ∈ ps, p.id = v.id ∧ p.voter = q := by
    induction ps generalizing v with
    | nil => simp
    | cons p ps ih =>
      have hrecord : (v.record p).numbers.contains q = true ↔
          v.numbers.contains q = true ∨ p.id = v.id ∧ p.voter = q := by
        unfold SortedMap.contains
        rw [get?_record]
        by_cases hp : p.id = v.id ∧ q = p.voter
        · rw [if_pos hp]
          simp [hp.1, hp.2]
        · rw [if_neg hp]
          simp only [eq_comm (a := p.voter), hp, or_false]
      rw [List.foldl_cons, ih, id_record, hrecord]
      simp only [List.mem_cons, or_and_right, exists_or, exists_eq_left, or_assoc]
  unfold covers
  rw [List.all_eq_true]
  exact forall₂_congr fun q _ => hcontains q

end Votes

/-! ## The quorum -/

namespace Bank

open Config

/-- The group of a node of the bank holds each id of the table and the node's own once, in the order
    of first occurrence and with the address first listed; the node itself, if it is not listed,
    comes last and under the machine's own address. Listing the group as the table changes nothing.
    Every member of the group is registered with a queue of its own, none of which replaces another,
    and nobody else is; there are as many live members as ids. Votes are complete exactly where
    every one of these ids has cast one. -/
theorem group_is_quorum (self : NodeId) (port : UInt16) (table : List Node) :
    let config := groupConfig self port table
    let group := config.membership
    let ids := table.map (·.id) ++ [self]
    let peers := (Member.ofConfig config).peers
    ((group.map (·.id)).Nodup ∧ (∀ q, q ∈ group.map (·.id) ↔ q ∈ table.map (·.id) ∨ q = self) ∧
      group.Pairwise (fun a b => ids.idxOf a.id < ids.idxOf b.id) ∧
      (∀ n ∈ group, (table ++ [own self port]).find? (·.id == n.id) = some n) ∧
      (self ∉ table.map (·.id) → group.getLast? = some (own self port))) ∧
    ((groupConfig self port group).membership = group ∧
      { config with members := group }.membership = group) ∧
    ((∀ q, peers.peers.get? q = (group.find? (·.id == q)).map fun n => Peer.mk n false 0 0) ∧
      (∀ q, peers.outboxes.get? q
        = (group.find? (·.id == q)).map fun _ => Outbox.init config.outboundCapacity) ∧
      (∀ before n after, group = before ++ n :: after →
        (before.foldl (fun t n => t.add n config.outboundCapacity) PeerTable.empty).replacedBy n.id
          = none) ∧
      peers.liveCount = ids.dedup.length) ∧
    ∀ id (ps : List Proposal), (ps.foldl Votes.record (Votes.init id)).covers peers.liveIds = true ↔
      ∀ q ∈ group.map (·.id), ∃ p ∈ ps, p.id = id ∧ p.voter = q := by
  intro config group ids peers
  have hgroup : group = firstById (table ++ [own self port]) := membership_groupConfig ..
  have hids : (table ++ [own self port]).map (·.id) = ids := by simp [ids, own]
  have hmem (q : NodeId) : q ∈ group.map (·.id) ↔ q ∈ ids := by
    rw [hgroup, mem_ids_firstById, hids]
  refine ⟨⟨config.nodup_ids_membership, fun q => ?_, ?_, fun n hn => ?_, fun hnew => ?_⟩,
    ⟨?_, config.membership_membership⟩,
    ⟨fun q => (Member.get?_ofConfig config q).1, fun q => (Member.get?_ofConfig config q).2,
      fun before n after h => PeerTable.replacedBy_foldl_add config.nodup_ids_membership h _,
      Member.liveCount_ofConfig hmem⟩, fun id ps => ?_⟩
  · rw [hmem, List.mem_append, List.mem_singleton]
  · rw [hgroup, ← hids]
    exact pairwise_firstById _
  · rw [hgroup] at hn
    exact mem_firstById_iff.1 hn
  · have hnew' : (own self port).id ∉ (firstById table).map (·.id) := by
      rwa [mem_ids_firstById]
    rw [hgroup, firstById_append_singleton, addMissing_of_not_mem hnew', List.getLast?_concat]
  · rw [membership_groupConfig, firstById_append_singleton,
      firstById_of_nodup config.nodup_ids_membership,
      addMissing_of_mem (n := own self port) config.self_mem_membership]
  · have hnone (q : NodeId) : (Votes.init id).numbers.contains q = false := rfl
    simp only [Votes.covers_foldl_record, peers, Member.mem_liveIds_ofConfig, hnone,
      Bool.false_eq_true, false_or]
    rfl

end Bank

end AgreedOrder
