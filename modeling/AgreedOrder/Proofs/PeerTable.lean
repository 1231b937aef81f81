/-
  AgreedOrder.Proofs.PeerTable

  Who counts as live in a table of members, and what waits for whom. Adding
  and removing members changes who is live, and nothing else does; lines and
  counters leave it alone.

    * `isLive_init` — a new table counts the whole group as live.
    * `isLive_remove`, `changes_remove` — taking a member out.
    * `waiting`, `hasReader` — the queues, seen one by one.
    * `Roomy` — a queue in which nothing waits has room.
-/

import AgreedOrder.Member
import AgreedOrder.Proofs.SortedMap

namespace AgreedOrder

namespace PeerTable

variable {t : PeerTable}

theorem mem_liveIds (t : PeerTable) (q : NodeId) : q ∈ t.liveIds ↔ t.isLive q = true :=
  t.peers.mem_keys_iff q

theorem nodup_liveIds (t : PeerTable) : t.liveIds.Nodup := t.peers.nodup_keys

theorem isLive_add (t : PeerTable) (node : Node) (capacity : Nat) (q : NodeId) :
    (t.add node capacity).isLive q = (decide (q = node.id) || t.isLive q) :=
  t.peers.contains_insert node.id q _

theorem isLive_foldl_add (nodes : List Node) (capacity : Nat) (t : PeerTable) (q : NodeId) :
    (nodes.foldl (fun t n => t.add n capacity) t).isLive q = true ↔
      q ∈ nodes.map (·.id) ∨ t.isLive q = true := by
  induction nodes generalizing t with
  | nil => simp
  | cons n tl ih =>
    rw [List.foldl_cons, ih, isLive_add, List.map_cons, List.mem_cons, Bool.or_eq_true,
      decide_eq_true_eq]
    exact ⟨fun h => by rcases h with h | h | h <;> simp [h],
      fun h => by rcases h with (h | h) | h <;> simp [h]⟩

/-! ## Taking a member out -/

theorem isLive_remove (t : PeerTable) (id q : NodeId) :
    (t.remove id).2.isLive q = (!decide (q = id) && t.isLive q) := by
  cases h : t.peers.get? id with
  | none =>
    have hnot : t.isLive id = false := by
      rw [isLive, SortedMap.contains, h]
      rfl
    rw [remove, h]
    by_cases hq : q = id
    · rw [hq, hnot, Bool.and_false]
    · rw [decide_eq_false hq, Bool.not_false, Bool.true_and]
  | some peer =>
    rw [remove, h]
    exact t.peers.contains_erase id q

theorem changes_remove (t : PeerTable) (id : NodeId) :
    (t.remove id).2.changes = if t.isLive id then t.changes + 1 else t.changes := by
  rw [isLive, SortedMap.contains, remove]
  cases t.peers.get? id <;> rfl

/-- A table without the member is as it was. -/
theorem remove_of_not_live {id : NodeId} (h : t.isLive id = false) : (t.remove id).2 = t := by
  rw [isLive, SortedMap.contains, Option.isSome_eq_false_iff, Option.isNone_iff_eq_none] at h
  rw [remove, h]

/-! ## Queues -/

/-- The lines that wait for a member. -/
def waiting (t : PeerTable) (q : NodeId) : List String :=
  ((t.outboxes.get? q).map (·.lines)).getD []

/-- Whether somebody reads the queue of a member. -/
def hasReader (t : PeerTable) (q : NodeId) : Bool :=
  ((t.outboxes.get? q).map (·.hasReader)).getD false

@[simp] theorem isLive_countForAll (t : PeerTable) (line : String) (q : NodeId) :
    (t.countForAll line).isLive q = t.isLive q := by
  unfold isLive SortedMap.contains countForAll
  rw [SortedMap.get?_map _ _ _ fun _ _ => rfl, Option.isSome_map]

/-- What becomes of a line that is put into a queue: it waits behind the others, or nothing
    changes. -/
theorem enqueue_cases (t : PeerTable) (id : NodeId) (line : String) :
    (∃ b, t.outboxes.get? id = some b ∧ b.hasReader = true ∧
        t.enqueue id line = (.queued, t.pushLine id line)) ∨
      (∃ r, r ≠ .queued ∧ t.enqueue id line = (r, t) ∧
        (r = .closed → t.hasReader id = false)) := by
  unfold enqueue hasReader
  cases hb : t.outboxes.get? id with
  | none => exact Or.inr ⟨.closed, nofun, rfl, fun _ => rfl⟩
  | some b =>
    dsimp only
    cases hreader : b.hasReader with
    | false => exact Or.inr ⟨.closed, nofun, rfl, fun _ => hreader⟩
    | true =>
      rw [if_pos rfl]
      -- A queue that is read takes the line if it is not full.
      split
      · exact Or.inr ⟨.full, nofun, rfl, nofun⟩
      · exact Or.inl ⟨b, rfl, hreader, rfl⟩

theorem waiting_pushLine {t : PeerTable} {id : NodeId} {b : Outbox}
    (hb : t.outboxes.get? id = some b) (line : String) (q : NodeId) :
    (t.pushLine id line).waiting q
      = if q = id then t.waiting q ++ [line] else t.waiting q := by
  unfold waiting pushLine
  rw [SortedMap.get?_modify]
  by_cases hq : q = id
  · rw [if_pos hq, if_pos hq, hq, hb]
    rfl
  · rw [if_neg hq, if_neg hq]

@[simp] theorem hasReader_pushLine (t : PeerTable) (id : NodeId) (line : String) (q : NodeId) :
    (t.pushLine id line).hasReader q = t.hasReader q := by
  unfold hasReader pushLine
  rw [SortedMap.get?_modify]
  split
  · rw [Option.map_map]
    rfl
  · rfl

/-- A line that is taken from a queue was the oldest one there. -/
theorem takeLine_eq_line {t t' : PeerTable} {id : NodeId} {line : String}
    (h : t.takeLine id = (some (.line line), t')) :
    ∃ rest, t.waiting id = line :: rest ∧ t'.peers = t.peers ∧ t'.changes = t.changes ∧
      (∀ q, t'.waiting q = if q = id then rest else t.waiting q) ∧
      ∀ q, t'.hasReader q = t.hasReader q := by
  cases hb : t.outboxes.get? id with
  | none =>
    rw [takeLine, hb] at h
    cases h
  | some b =>
    cases hlines : b.lines with
    -- An empty queue gives no line.
    | nil =>
      rw [takeLine, hb] at h
      simp only [Outbox.take, hlines] at h
      have htaken := (Prod.mk.inj h).1
      split at htaken <;> cases htaken
    | cons first rest =>
      rw [takeLine, hb] at h
      simp only [Outbox.take, hlines] at h
      cases h
      refine ⟨rest, ?_, rfl, rfl, fun q => ?_, fun q => ?_⟩
      · unfold waiting
        rw [hb, Option.map_some, Option.getD_some, hlines]
      · unfold waiting
        rw [SortedMap.get?_insert_eq_ite]
        split <;> rfl
      · unfold hasReader
        rw [SortedMap.get?_insert_eq_ite]
        split
        · rename_i hq
          rw [hq, hb]
          rfl
        · rfl

@[simp] theorem waiting_dropReader (t : PeerTable) (id q : NodeId) :
    (t.dropReader id).waiting q = t.waiting q := by
  unfold waiting dropReader
  rw [SortedMap.get?_modify]
  split
  · rw [Option.map_map]
    rfl
  · rfl

theorem hasReader_dropReader (t : PeerTable) (id q : NodeId) :
    (t.dropReader id).hasReader q = (!decide (q = id) && t.hasReader q) := by
  unfold hasReader dropReader
  rw [SortedMap.get?_modify]
  by_cases hq : q = id
  · rw [if_pos hq, decide_eq_true hq, Option.map_map]
    cases t.outboxes.get? q <;> rfl
  · rw [if_neg hq, decide_eq_false hq]
    rfl

@[simp] theorem waiting_remove (t : PeerTable) (id q : NodeId) :
    (t.remove id).2.waiting q = t.waiting q := by
  unfold waiting remove
  split
  · rfl
  · rw [SortedMap.get?_modify]
    split
    · rw [Option.map_map]
      rfl
    · rfl

@[simp] theorem hasReader_remove (t : PeerTable) (id q : NodeId) :
    (t.remove id).2.hasReader q = t.hasReader q := by
  unfold hasReader remove
  split
  · rfl
  · rw [SortedMap.get?_modify]
    split
    · rw [Option.map_map]
      rfl
    · rfl

theorem queues_add (t : PeerTable) (node : Node) (capacity : Nat) (q : NodeId) :
    (t.add node capacity).waiting q = (if q = node.id then [] else t.waiting q) ∧
      (t.add node capacity).hasReader q = (decide (q = node.id) || t.hasReader q) := by
  unfold waiting hasReader add
  rw [SortedMap.get?_insert_eq_ite]
  by_cases hq : q = node.id
  · rw [if_pos hq, if_pos hq, decide_eq_true hq]
    exact ⟨rfl, rfl⟩
  · rw [if_neg hq, if_neg hq, decide_eq_false hq]
    exact ⟨rfl, rfl⟩

theorem queues_foldl_add (nodes : List Node) (capacity : Nat) (t : PeerTable) (q : NodeId)
    (hwaiting : t.waiting q = []) :
    (nodes.foldl (fun t n => t.add n capacity) t).waiting q = [] ∧
      (nodes.foldl (fun t n => t.add n capacity) t).hasReader q
        = (decide (q ∈ nodes.map (·.id)) || t.hasReader q) := by
  induction nodes generalizing t with
  | nil => exact ⟨hwaiting, rfl⟩
  | cons n tl ih =>
    obtain ⟨hw, hr⟩ := queues_add t n capacity q
    have hempty : (t.add n capacity).waiting q = [] := by
      rw [hw, hwaiting, ite_self]
    obtain ⟨hw', hr'⟩ := ih (t.add n capacity) hempty
    refine ⟨hw', ?_⟩
    rw [List.foldl_cons, hr', hr]
    by_cases hq : q = n.id <;> simp [hq]

/-! ## Room in queues -/

/-- A line fits into every queue. -/
def Roomy (t : PeerTable) : Prop := ∀ q b, t.outboxes.get? q = some b → 0 < b.capacity

/-- Only a queue in which something waits can be full. -/
theorem waiting_ne_nil_of_full {q : NodeId} {line : String} (h : t.Roomy)
    (hfull : (t.enqueue q line).1 = .full) : t.waiting q ≠ [] := by
  unfold enqueue at hfull
  cases hb : t.outboxes.get? q with
  | none =>
    rw [hb] at hfull
    cases hfull
  | some b =>
    rw [hb] at hfull
    dsimp only at hfull
    split at hfull
    · split at hfull
      -- A full queue holds as many lines as its capacity, which is not zero.
      · rename_i hisFull
        have hcapacity := h q b hb
        have hlength : b.capacity ≤ b.lines.length := of_decide_eq_true hisFull
        intro hnil
        rw [waiting, hb, Option.map_some, Option.getD_some] at hnil
        rw [hnil, List.length_nil] at hlength
        omega
      · cases hfull
    · cases hfull

/-- A queue in which something waits gives its oldest line. -/
theorem exists_takeLine {q : NodeId} (h : t.waiting q ≠ []) :
    ∃ line t', t.takeLine q = (some (.line line), t') := by
  unfold waiting at h
  cases hb : t.outboxes.get? q with
  | none =>
    rw [hb] at h
    exact absurd rfl h
  | some b =>
    rw [hb, Option.map_some, Option.getD_some] at h
    obtain ⟨line, rest, hlines⟩ := List.exists_cons_of_ne_nil h
    refine ⟨line, { t with outboxes := t.outboxes.insert q { b with lines := rest } }, ?_⟩
    rw [takeLine, hb]
    simp only [Outbox.take, hlines]

/-- A change of one queue that leaves its capacity alone. -/
theorem Roomy.modify {t' : PeerTable} (h : t.Roomy) {id : NodeId} {f : Outbox → Outbox}
    (ht : t'.outboxes = t.outboxes.modify id f) (hf : ∀ b, (f b).capacity = b.capacity) :
    t'.Roomy := by
  intro q b hb
  rw [ht, SortedMap.get?_modify] at hb
  split at hb
  · obtain ⟨b', hb', rfl⟩ := Option.map_eq_some_iff.1 hb
    rw [hf]
    exact h q b' hb'
  · exact h q b hb

theorem Roomy.enqueue (h : t.Roomy) (q : NodeId) (line : String) :
    (t.enqueue q line).2.Roomy := by
  rcases t.enqueue_cases q line with ⟨b, -, -, heq⟩ | ⟨o, -, heq, -⟩
  · rw [heq]
    exact h.modify rfl fun _ => rfl
  · rw [heq]
    exact h

theorem Roomy.takeLine (h : t.Roomy) (q : NodeId) : (t.takeLine q).2.Roomy := by
  unfold PeerTable.takeLine
  cases hb : t.outboxes.get? q with
  | none => exact h
  | some b =>
    have hcapacity : b.take.2.capacity = b.capacity := by
      unfold Outbox.take
      split <;> rfl
    intro r b' hb'
    dsimp only at hb'
    rw [SortedMap.get?_insert_eq_ite] at hb'
    split at hb'
    · rw [← Option.some.inj hb', hcapacity]
      exact h q b hb
    · exact h r b' hb'

theorem Roomy.remove (h : t.Roomy) (q : NodeId) : (t.remove q).2.Roomy := by
  unfold PeerTable.remove
  split
  · exact h
  · exact h.modify rfl fun _ => rfl

theorem Roomy.add (h : t.Roomy) (node : Node) (capacity : Nat) : (t.add node capacity).Roomy := by
  intro q b hb
  rw [PeerTable.add, SortedMap.get?_insert_eq_ite] at hb
  split at hb
  · rw [← Option.some.inj hb]
    show 0 < max capacity 1
    omega
  · exact h q b hb

theorem Roomy.foldl_add (nodes : List Node) (capacity : Nat) (h : t.Roomy) :
    (nodes.foldl (fun t n => t.add n capacity) t).Roomy := by
  induction nodes generalizing t with
  | nil => exact h
  | cons n tl ih => exact ih (h.add n capacity)

end PeerTable

namespace Member

theorem isLive_init (self : NodeId) (nodes : List Node) (capacity : Nat) (q : NodeId) :
    (init self nodes capacity).peers.isLive q = true ↔ q ∈ nodes.map (·.id) := by
  have hempty : PeerTable.empty.isLive q = false := rfl
  rw [show (init self nodes capacity).peers
      = nodes.foldl (fun t n => t.add n capacity) PeerTable.empty from rfl,
    PeerTable.isLive_foldl_add, hempty]
  exact or_iff_left Bool.false_ne_true

/-- Nothing waits for anybody yet, and every queue of the group is read. -/
theorem queues_init (self : NodeId) (nodes : List Node) (capacity : Nat) (q : NodeId) :
    (init self nodes capacity).peers.waiting q = [] ∧
      (init self nodes capacity).peers.hasReader q = decide (q ∈ nodes.map (·.id)) := by
  obtain ⟨hwaiting, hreader⟩ := PeerTable.queues_foldl_add nodes capacity PeerTable.empty q rfl
  exact ⟨hwaiting, hreader.trans (Bool.or_false _)⟩

theorem roomy_init (self : NodeId) (nodes : List Node) (capacity : Nat) :
    (init self nodes capacity).peers.Roomy :=
  PeerTable.Roomy.foldl_add nodes capacity (t := PeerTable.empty) nofun

end Member

end AgreedOrder
