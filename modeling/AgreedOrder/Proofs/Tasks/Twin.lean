/-
  AgreedOrder.Proofs.Tasks.Twin

  Two members that order messages alike: they agree in all but what waits in
  their queues, what was counted, and some ids that one of them may have seen
  and the other not. Whatever one does with a frame, the other does with it,
  unless it carries one of these ids.

    * `PeerTable.SameGroup` — the same members, and readers of the same queues.
    * `Member.Twin` — members that order messages alike.
    * `twin_begin`, `twin_route`, `twin_reply` — the parts of the dispatcher.
-/

import AgreedOrder.Proofs.Tasks.Handlers

namespace AgreedOrder

open Json

/-! ## Tables -/

namespace PeerTable

/-- The same members are live, the same queues are read, and all of them have room for a line. -/
structure SameGroup (t t' : PeerTable) : Prop where
  changes : t'.changes = t.changes
  isLive : ∀ q, t'.isLive q = t.isLive q
  hasReader : ∀ q, t'.hasReader q = t.hasReader q
  roomy : t.Roomy
  roomy' : t'.Roomy

variable {t t' t'' : PeerTable} {q : NodeId}

theorem sameGroup_refl (h : t.Roomy) : SameGroup t t := ⟨rfl, fun _ => rfl, fun _ => rfl, h, h⟩

theorem SameGroup.symm (h : SameGroup t t') : SameGroup t' t :=
  ⟨h.changes.symm, fun q => (h.isLive q).symm, fun q => (h.hasReader q).symm, h.roomy', h.roomy⟩

theorem SameGroup.trans (h : SameGroup t t') (h' : SameGroup t' t'') : SameGroup t t'' :=
  ⟨h'.changes.trans h.changes, fun q => (h'.isLive q).trans (h.isLive q),
    fun q => (h'.hasReader q).trans (h.hasReader q), h.roomy, h'.roomy'⟩

/-- What leaves a group the same may happen on both sides. -/
theorem SameGroup.both {u u' : PeerTable} (h : SameGroup t t') (hu : SameGroup t u)
    (hu' : SameGroup t' u') : SameGroup u u' :=
  (hu.symm.trans h).trans hu'

theorem SameGroup.liveIds (h : SameGroup t t') : t'.liveIds = t.liveIds :=
  SortedMap.keys_eq_of_contains h.isLive

theorem hasReader_of_outboxes (h : t'.outboxes = t.outboxes) (q : NodeId) :
    t'.hasReader q = t.hasReader q := by
  unfold hasReader
  rw [h]

theorem Roomy.of_outboxes (hr : t.Roomy) (h : t'.outboxes = t.outboxes) : t'.Roomy := by
  unfold Roomy
  rw [h]
  exact hr

theorem sameGroup_countForAll (h : t.Roomy) (line : String) :
    SameGroup t (t.countForAll line) :=
  ⟨rfl, fun q => t.isLive_countForAll line q, fun _ => rfl, h, h⟩

theorem sameGroup_countFor {line : String} (h : t.Roomy) (hcount : t.countFor q line = .ok t') :
    SameGroup t t' :=
  have houtboxes := outboxes_countFor hcount
  ⟨(isLive_countFor hcount q).2, fun r => (isLive_countFor hcount r).1,
    hasReader_of_outboxes houtboxes, h, h.of_outboxes houtboxes⟩

theorem sameGroup_enqueue (h : t.Roomy) (q : NodeId) (line : String) :
    SameGroup t (t.enqueue q line).2 := by
  refine ⟨(t.isLive_enqueue q line q).2, fun r => (t.isLive_enqueue q line r).1, fun r => ?_, h,
    h.enqueue q line⟩
  rcases t.enqueue_cases q line with ⟨b, -, -, heq⟩ | ⟨o, -, heq, -⟩
  · rw [heq]
    exact t.hasReader_pushLine q line r
  · rw [heq]

theorem sameGroup_takeLine (h : t.Roomy) (q : NodeId) : SameGroup t (t.takeLine q).2 := by
  refine ⟨?_, fun r => ?_, fun r => ?_, h, h.takeLine q⟩
  · unfold takeLine
    split <;> rfl
  · unfold takeLine
    split <;> rfl
  · unfold takeLine
    cases hb : t.outboxes.get? q with
    | none => rfl
    | some b =>
      have hreader : b.take.2.hasReader = b.hasReader := by
        unfold Outbox.take
        split <;> rfl
      unfold hasReader
      dsimp only
      rw [SortedMap.get?_insert_eq_ite]
      by_cases hr : r = q
      · rw [if_pos hr, hr, hb, Option.map_some, Option.map_some, hreader]
      · rw [if_neg hr]

theorem SameGroup.countForAll (h : SameGroup t t') (line : String) :
    SameGroup (t.countForAll line) (t'.countForAll line) :=
  h.both (sameGroup_countForAll h.roomy line) (sameGroup_countForAll h.roomy' line)

theorem SameGroup.enqueue (h : SameGroup t t') (q : NodeId) (line : String) :
    SameGroup (t.enqueue q line).2 (t'.enqueue q line).2 :=
  h.both (sameGroup_enqueue h.roomy q line) (sameGroup_enqueue h.roomy' q line)

theorem SameGroup.takeLine (h : SameGroup t t') (q : NodeId) :
    SameGroup (t.takeLine q).2 (t'.takeLine q).2 :=
  h.both (sameGroup_takeLine h.roomy q) (sameGroup_takeLine h.roomy' q)

theorem SameGroup.remove (h : SameGroup t t') (q : NodeId) :
    SameGroup (t.remove q).2 (t'.remove q).2 := by
  refine ⟨?_, fun r => ?_, fun r => ?_, h.roomy.remove q, h.roomy'.remove q⟩
  · rw [changes_remove, changes_remove, h.isLive, h.changes]
  · rw [isLive_remove, isLive_remove, h.isLive]
  · rw [hasReader_remove, hasReader_remove, h.hasReader]

theorem SameGroup.dropReader (h : SameGroup t t') (q : NodeId) :
    SameGroup (t.dropReader q) (t'.dropReader q) := by
  refine ⟨h.changes, h.isLive, fun r => ?_, h.roomy.modify rfl fun _ => rfl,
    h.roomy'.modify rfl fun _ => rfl⟩
  rw [hasReader_dropReader, hasReader_dropReader, h.hasReader]

/-- Who is live on one side is live on the other. -/
theorem SameGroup.isSome_get? (h : SameGroup t t') (q : NodeId) :
    (t'.peers.get? q).isSome = (t.peers.get? q).isSome := h.isLive q

/-- A link can be noted for the same members. -/
theorem SameGroup.markConnected {u : PeerTable} (h : SameGroup t t')
    (hu : t.markConnected q = .ok u) : ∃ u', t'.markConnected q = .ok u' ∧ SameGroup u u' := by
  have hsome := h.isSome_get? q
  unfold PeerTable.markConnected at hu ⊢
  cases hpeer : t.peers.get? q with
  | none =>
    rw [hpeer] at hu
    cases hu
  | some peer =>
    rw [hpeer] at hu hsome
    obtain ⟨peer', hpeer'⟩ := Option.isSome_iff_exists.1 hsome
    cases hu
    rw [hpeer']
    refine ⟨_, rfl, congrArg (· + 1) h.changes, fun r => ?_, h.hasReader, h.roomy, h.roomy'⟩
    show (t'.peers.insert q _).contains r = (t.peers.insert q _).contains r
    rw [SortedMap.contains_insert, SortedMap.contains_insert]
    exact congrArg (_ || ·) (h.isLive r)

/-- A line can be counted for the same members. -/
theorem SameGroup.countFor (h : SameGroup t t') (q : NodeId) (line : String) :
    (∃ e, t.countFor q line = .error e ∧ t'.countFor q line = .error e) ∨
      ∃ u u', t.countFor q line = .ok u ∧ t'.countFor q line = .ok u' ∧ SameGroup u u' := by
  have hsome := h.isSome_get? q
  cases hpeer : t.peers.get? q with
  | none =>
    rw [hpeer] at hsome
    have hpeer' := Option.isNone_iff_eq_none.1 (Option.isSome_eq_false_iff.1 hsome)
    refine .inl ⟨.unknownPeer q, ?_, ?_⟩
    · rw [PeerTable.countFor, hpeer]
    · rw [PeerTable.countFor, hpeer']
  | some peer =>
    rw [hpeer] at hsome
    obtain ⟨peer', hpeer'⟩ := Option.isSome_iff_exists.1 hsome
    have hu : t.countFor q line
        = .ok { t with peers := t.peers.insert q (countLine line peer) } := by
      rw [PeerTable.countFor, hpeer]
    have hu' : t'.countFor q line
        = .ok { t' with peers := t'.peers.insert q (countLine line peer') } := by
      rw [PeerTable.countFor, hpeer']
    exact .inr ⟨_, _, hu, hu',
      h.both (sameGroup_countFor h.roomy hu) (sameGroup_countFor h.roomy' hu')⟩

end PeerTable

/-! ## Members -/

namespace Member

/-- Members that order messages alike. Only of the ids set apart, one of them may have seen what
    the other has not. -/
structure Twin (apart : MessageId → Prop) (m m' : Member) : Prop where
  alike : Alike m m'
  group : m.peers.SameGroup m'.peers
  received : ∀ id, ¬apart id → (id ∈ m.received ↔ id ∈ m'.received)

variable {apart : MessageId → Prop} {m m' : Member}

theorem Alike.symm (h : Alike m m') : Alike m' m :=
  ⟨h.self.symm, h.stopped.symm, h.sequencer.symm, h.collectors.symm, h.released.symm,
    h.seenChanges.symm, h.changes.symm, fun q => (h.isLive q).symm⟩

theorem Twin.symm (h : Twin apart m m') : Twin apart m' m :=
  ⟨h.alike.symm, h.group.symm, fun id hid => (h.received id hid).symm⟩

theorem Twin.trans {m'' : Member} (h : Twin apart m m') (h' : Twin apart m' m'') :
    Twin apart m m'' :=
  ⟨h.alike.trans h'.alike, h.group.trans h'.group,
    fun id hid => (h.received id hid).trans (h'.received id hid)⟩

theorem Twin.setPeers (h : Twin apart m m') {t t' : PeerTable} (hgroup : t.SameGroup t') :
    Twin apart { m with peers := t } { m' with peers := t' } :=
  ⟨⟨h.alike.self, h.alike.stopped, h.alike.sequencer, h.alike.collectors, h.alike.released,
    h.alike.seenChanges, hgroup.changes, hgroup.isLive⟩, hgroup, h.received⟩

theorem Twin.release (h : Twin apart m m') : Twin apart m.release m'.release :=
  ⟨h.alike.release, h.group, h.received⟩

theorem Twin.setSequencer (h : Twin apart m m') (q : Sequencer) :
    Twin apart { m with sequencer := q } { m' with sequencer := q } :=
  ⟨h.alike.setSequencer q, h.group, h.received⟩

theorem Twin.setCollectors (h : Twin apart m m') (cs : List Collector) :
    Twin apart { m with collectors := cs } { m' with collectors := cs } :=
  ⟨h.alike.setCollectors cs, h.group, h.received⟩

theorem Twin.setSeenChanges (h : Twin apart m m') (n : Nat) :
    Twin apart { m with seenChanges := n } { m' with seenChanges := n } :=
  ⟨⟨h.alike.self, h.alike.stopped, h.alike.sequencer, h.alike.collectors, h.alike.released, rfl,
    h.alike.changes, h.alike.isLive⟩, h.group, h.received⟩

theorem Twin.hear (h : Twin apart m m') (id : MessageId) :
    Twin apart { m with received := id :: m.received } { m' with received := id :: m'.received } :=
  ⟨⟨h.alike.self, h.alike.stopped, h.alike.sequencer, h.alike.collectors, h.alike.released,
    h.alike.seenChanges, h.alike.changes, h.alike.isLive⟩, h.group, fun id' hid => by
    rw [List.mem_cons, List.mem_cons, h.received id' hid]⟩

theorem Twin.openCollector (h : Twin apart m m') (id : MessageId) :
    Twin apart (m.openCollector id) (m'.openCollector id) :=
  ⟨h.alike.openCollector id, h.group, h.received⟩

theorem Twin.eject (h : Twin apart m m') (q : NodeId) :
    Twin apart (m.eject q).2 (m'.eject q).2 := h.setPeers (h.group.remove q)

theorem Twin.onProposal (h : Twin apart m m') (body : Bytes) :
    Twin apart (m.onProposal body) (m'.onProposal body) := by
  unfold Member.onProposal
  split
  · exact h
  · rw [h.alike.collectors]
    exact h.setCollectors _

theorem Twin.frameLine (h : Twin apart m m') (path : ControlPath) (body : Bytes) :
    m'.frameLine path body = m.frameLine path body := by
  unfold Member.frameLine
  rw [h.alike.self]

end Member

namespace Tasks

open Member (Twin)

variable {apart : MessageId → Prop} {m m' : Member}

/-! ## The dispatcher -/

/-- A frame carries none of the ids that are set apart. -/
def Clear (apart : MessageId → Prop) (frame : Frame) : Prop :=
  ControlPath.ofText? frame.path = some .reliable →
    ∀ f : Flood, Record.decode? frame.body = some f → ¬apart f.id

theorem twin_begin (h : Twin apart m m') {frame : Frame} (hclear : Clear apart frame) :
    (begin m' frame).1 = (begin m frame).1 ∧
      Twin apart (begin m frame).2 (begin m' frame).2 := by
  unfold Tasks.begin
  split
  · rename_i hpath
    unfold Member.takeIn
    cases hdecode : (Record.decode? frame.body : Option Flood) with
    | none => exact ⟨rfl, h⟩
    | some f =>
      have hseen : m'.received.contains f.id = m.received.contains f.id := by
        rw [Bool.eq_iff_iff, List.contains_iff_mem, List.contains_iff_mem]
        exact (h.received f.id (hclear hpath f hdecode)).symm
      dsimp only
      rw [hseen]
      cases m.received.contains f.id with
      | true => exact ⟨rfl, h⟩
      | false =>
        refine ⟨?_, h.hear f.id⟩
        show (if frame.sender = m'.self then _ else _) = if frame.sender = m.self then _ else _
        rw [h.alike.self]
  · exact ⟨rfl, h.onProposal frame.body⟩
  · exact ⟨rfl, h⟩

theorem twin_route (h : Twin apart m m') (f : Flood) :
    (route m' f).1 = (route m f).1 ∧ Twin apart (route m f).2 (route m' f).2 := by
  unfold Tasks.route
  rw [h.alike.sequencer]
  split
  · split
    · exact ⟨rfl, h⟩
    · exact ⟨rfl, h.setSequencer _⟩
  · split
    · exact ⟨rfl, h⟩
    · exact ⟨rfl, h.setSequencer _⟩
  · exact ⟨rfl, h⟩

theorem twin_reply (h : Twin apart m m') (sender : NodeId) (v : Proposal) :
    (reply m' sender v).1 = (reply m sender v).1 ∧
      Twin apart (reply m sender v).2 (reply m' sender v).2 := by
  unfold Tasks.reply
  rw [h.frameLine]
  dsimp only
  rcases h.group.countFor sender (m.frameLine .proposal (Record.encode v)) with
    ⟨e, hcount, hcount'⟩ | ⟨u, u', hcount, hcount', hgroup⟩
  · rw [hcount, hcount']
    exact ⟨rfl, h⟩
  · rw [hcount, hcount']
    exact ⟨rfl, h.setPeers hgroup⟩

end Tasks

end AgreedOrder
