/-
  AgreedOrder.Proofs.Flooding.Intake

  One member takes in frames on the reliable path, from anybody and with
  anything in them. Of the copies of an envelope, which agree in its id, the
  first one is handled and the others are not, however the id is spelled and
  whatever else they hold.

    * `firstCopies` — of the copies of each id, the first.
    * `attend`, `attend_eq` — a frame, with what is done about it.
    * `History` — frames that come to a member, and what else happens to it.
    * `History.handles_first_copies` — what is done in all.
    * `handles_each_id_once` — a member that nothing was sent to yet.
-/

import AgreedOrder.Proofs.Envelope
import AgreedOrder.Proofs.Flooding.Step
import AgreedOrder.Proofs.Protocol.Handlers
import AgreedOrder.Proofs.Sending
import Mathlib.Data.Finset.Card

namespace AgreedOrder

open Json

/-! ## Lines are added to queues -/

namespace PeerTable

theorem waiting_enqueue_prefix (t : PeerTable) (id : NodeId) (line : String) (q : NodeId) :
    t.waiting q <+: (t.enqueue id line).2.waiting q := by
  rcases t.enqueue_cases id line with ⟨b, hb, -, heq⟩ | ⟨r, -, heq, -⟩
  · rw [heq, waiting_pushLine hb]
    split
    · exact List.prefix_append _ _
    · exact List.prefix_rfl
  · rw [heq]

end PeerTable

namespace Member

/-- A member that adds lines to its queues keeps its name and what it has seen. -/
structure Extends (m m' : Member) : Prop where
  self : m'.self = m.self
  received : m'.received = m.received
  waiting : ∀ q, m.peers.waiting q <+: m'.peers.waiting q

variable {m m' m'' : Member}

theorem extends_refl (m : Member) : Extends m m := ⟨rfl, rfl, fun _ => List.prefix_rfl⟩

theorem Extends.trans (h : Extends m m') (h' : Extends m' m'') : Extends m m'' :=
  ⟨h'.self.trans h.self, h'.received.trans h.received, fun q => (h.waiting q).trans (h'.waiting q)⟩

theorem extends_enqueueAll (line : String) (targets : List NodeId) (m : Member) :
    Extends m (enqueueAll line targets m).2 := by
  induction targets generalizing m with
  | nil => exact extends_refl m
  | cons id rest ih =>
    have hqueued (q : NodeId) := m.peers.waiting_enqueue_prefix id line q
    rw [enqueueAll]
    split
    · exact extends_refl m
    · rename_i peers _ heq
      rw [heq] at hqueued
      exact (Extends.mk rfl rfl hqueued : Extends m { m with peers }).trans (ih _)

theorem extends_multicast (m : Member) (path : ControlPath) (body : Bytes) :
    Extends m (m.multicast path body).2 :=
  have hcounted : Extends m { m with peers := m.peers.countForAll (m.frameLine path body) } :=
    ⟨rfl, rfl, fun _ => List.prefix_rfl⟩
  hcounted.trans (extends_enqueueAll ..)

theorem extends_unicast (m : Member) (target : NodeId) (path : ControlPath) (body : Bytes) :
    Extends m (m.unicast target path body).2 := by
  unfold unicast
  dsimp only
  cases hcount : m.peers.countFor target (m.frameLine path body) with
  | error e => exact extends_refl m
  | ok peers =>
    have hcounted : Extends m { m with peers } := by
      refine ⟨rfl, rfl, fun q => ?_⟩
      rw [PeerTable.waiting, PeerTable.waiting, PeerTable.outboxes_countFor hcount]
    have hqueued (q : NodeId) :=
      peers.waiting_enqueue_prefix target (m.frameLine path body) q
    dsimp only
    split
    · rename_i queued heq
      rw [heq] at hqueued
      exact hcounted.trans ⟨rfl, rfl, hqueued⟩
    · exact hcounted
    · exact hcounted

theorem extends_onFlood (m : Member) (f : Flood) : Extends m (m.onFlood f).2 := by
  unfold onFlood
  split
  · cases hask : (Record.decode? f.body : Option Ask) with
    | none =>
      unfold onAsk
      rw [hask]
      exact extends_refl m
    | some ask =>
      have hanswered : Extends m (m.answer ask).2 := ⟨rfl, rfl, fun _ => List.prefix_rfl⟩
      rw [(onAsk_outcome hask m).1]
      exact hanswered.trans (extends_unicast ..)
  · unfold onAgreement
    split
    · exact extends_refl m
    · exact ⟨rfl, rfl, fun _ => List.prefix_rfl⟩
  · exact extends_refl m

end Member

namespace Intake

/-! ## Copies -/

/-- A frame, and the envelope in its body. -/
abbrev Copy : Type := Frame × Flood

/-- The id of the envelope of a copy. -/
abbrev Copy.id (c : Copy) : MessageId := c.2.id

/-- The frames that hold an envelope, each with its envelope. -/
def copies (frames : List Frame) : List Copy :=
  frames.filterMap fun frame => (Record.decode? frame.body : Option Flood).map (frame, ·)

/-- Of the copies of each id, the first. -/
def firstCopies : List Copy → List Copy
  | [] => []
  | c :: rest => c :: (firstCopies rest).filter fun d => d.id ≠ c.id

variable {l : List Copy} {c : Copy}

theorem firstCopies_sublist (l : List Copy) : (firstCopies l).Sublist l := by
  induction l with
  | nil => exact List.Sublist.slnil
  | cons c rest ih => exact (List.filter_sublist.trans ih).cons_cons c

theorem nodup_firstCopies (l : List Copy) : ((firstCopies l).map Copy.id).Nodup := by
  induction l with
  | nil => exact List.nodup_nil
  | cons c rest ih =>
    rw [firstCopies, List.map_cons, List.nodup_cons]
    refine ⟨fun hmem => ?_, ih.sublist (List.filter_sublist.map _)⟩
    obtain ⟨d, hd, hid⟩ := List.mem_map.1 hmem
    exact of_decide_eq_true (List.mem_filter.1 hd).2 hid

/-- A copy is the first of its id if no copy before it has the same id. -/
theorem mem_firstCopies_iff : c ∈ firstCopies l ↔
    ∃ before after, l = before ++ c :: after ∧ ∀ d ∈ before, d.id ≠ c.id := by
  induction l with
  | nil =>
    refine iff_of_false (List.not_mem_nil) ?_
    rintro ⟨before, after, heq, -⟩
    cases before <;> cases heq
  | cons b rest ih =>
    rw [firstCopies, List.mem_cons, List.mem_filter, ih]
    constructor
    · rintro (rfl | ⟨⟨before, after, rfl, hbefore⟩, hne⟩)
      · exact ⟨[], rest, rfl, nofun⟩
      · exact ⟨b :: before, after, rfl,
          List.forall_mem_cons.2 ⟨(of_decide_eq_true hne).symm, hbefore⟩⟩
    · rintro ⟨_ | ⟨d, before⟩, after, heq, hbefore⟩
      · exact .inl (List.cons.inj heq).1.symm
      · obtain ⟨rfl, rfl⟩ := List.cons.inj heq
        obtain ⟨hne, hbefore⟩ := List.forall_mem_cons.1 hbefore
        exact .inr ⟨⟨before, after, rfl, hbefore⟩, decide_eq_true hne.symm⟩

/-- Every id that has copies has a first one. -/
theorem mem_map_firstCopies (id : MessageId) :
    id ∈ (firstCopies l).map Copy.id ↔ id ∈ l.map Copy.id := by
  induction l with
  | nil => exact Iff.rfl
  | cons c rest ih =>
    have hrest : id ∈ ((firstCopies rest).filter fun d => d.id ≠ c.id).map Copy.id
        ↔ id ∈ (firstCopies rest).map Copy.id ∧ id ≠ c.id := by
      simp only [List.mem_map, List.mem_filter, decide_eq_true_eq]
      constructor
      · rintro ⟨d, ⟨hd, hne⟩, rfl⟩
        exact ⟨⟨d, hd, rfl⟩, hne⟩
      · rintro ⟨⟨d, hd, rfl⟩, hne⟩
        exact ⟨d, ⟨hd, hne⟩, rfl⟩
    rw [firstCopies, List.map_cons, List.map_cons, List.mem_cons, List.mem_cons, hrest, ih]
    by_cases hid : id = c.id
    · simp only [hid, true_or]
    · simp only [hid, false_or, ne_eq, not_false_eq_true, and_true]

theorem length_firstCopies (l : List Copy) :
    (firstCopies l).length = (l.map Copy.id).toFinset.card := by
  have hsame : ((firstCopies l).map Copy.id).toFinset = (l.map Copy.id).toFinset := by
    ext id
    rw [List.mem_toFinset, List.mem_toFinset, mem_map_firstCopies]
  rw [← hsame, List.toFinset_card_of_nodup (nodup_firstCopies l), List.length_map]

/-- Leaving out some ids first, or last, comes to the same. -/
theorem firstCopies_filter (keep : MessageId → Bool) (l : List Copy) :
    firstCopies (l.filter fun c => keep c.id) = (firstCopies l).filter fun c => keep c.id := by
  induction l with
  | nil => rfl
  | cons c rest ih =>
    rw [firstCopies, List.filter_cons, List.filter_cons]
    cases hkeep : keep c.id with
    | true =>
      rw [if_pos rfl, if_pos rfl, firstCopies, ih, List.filter_comm]
    | false =>
      -- What is left out of the rest has another id than the copy that is left out.
      rw [if_neg Bool.false_ne_true, if_neg Bool.false_ne_true, ih, List.filter_filter]
      refine List.filter_congr fun d _ => ?_
      cases hd : keep d.id with
      | false => rfl
      | true =>
        have hne : d.id ≠ c.id := fun heq => by
          rw [heq, hkeep] at hd
          cases hd
        rw [decide_eq_true hne]
        rfl

/-! ## One frame -/

/-- Something that a member does about an envelope. -/
inductive Deed
  /-- A line goes to the group, and what becomes of it. -/
  | passOn (line : String) (outcome : SendOutcome)
  /-- The envelope is handed to the handler for its path. -/
  | handUp (f : Flood)
  deriving DecidableEq

/-- Handle a frame on the reliable path. Also tells what is done, one after the other. -/
def attend (m : Member) (frame : Frame) : List Deed × SendOutcome × Member :=
  match m.takeIn frame with
  | none => ([], .done, m)
  | some (f, m) =>
    if frame.sender = m.self then ([.handUp f], m.onFlood f)
    else
      let line := m.frameLine .reliable frame.body
      match m.multicast .reliable frame.body with
      | (.blocked, m) => ([.passOn line .blocked], .blocked, m)
      | (outcome, m) => ([.passOn line outcome, .handUp f], m.onFlood f)

/-- Telling what is done changes nothing. -/
theorem attend_eq (m : Member) (frame : Frame) : (attend m frame).2 = m.onReliable frame := by
  rw [Member.onReliable_eq]
  unfold attend
  cases m.takeIn frame with
  | none => rfl
  | some x =>
    obtain ⟨f, m⟩ := x
    dsimp only
    split
    · rfl
    · rcases m.multicast .reliable frame.body with ⟨_ | _ | e, m'⟩ <;> rfl

/-- The line with which a member passes a body on: the body as it came, in the member's name. -/
def relayLine (self : NodeId) (body : Bytes) : String :=
  Record.encodeText (Frame.mk self ControlPath.reliable.text body)

/-- What a member does about a copy of an envelope that is new to it. -/
def deedsOn (self : NodeId) (outcome : SendOutcome) (c : Copy) : List Deed :=
  (if c.1.sender = self then [] else [.passOn (relayLine self c.1.body) outcome]) ++ [.handUp c.2]

variable {m m' : Member} {frame : Frame} {f : Flood}

/-- A frame that holds no envelope, or one that was seen, leaves no trace. -/
theorem attend_of_not_taken (h : m.takeIn frame = none) : attend m frame = ([], .done, m) := by
  unfold attend
  rw [h]

theorem attend_of_own (h : m.takeIn frame = some (f, m')) (hself : frame.sender = m'.self) :
    attend m frame = ([.handUp f], m'.onFlood f) := by
  unfold attend
  rw [h]
  exact if_pos hself

theorem attend_of_other (h : m.takeIn frame = some (f, m')) (hself : frame.sender ≠ m'.self)
    {outcome : SendOutcome} {m'' : Member}
    (hsent : m'.multicast .reliable frame.body = (outcome, m'')) :
    attend m frame =
      if outcome = .blocked then ([.passOn (relayLine m'.self frame.body) .blocked], .blocked, m'')
      else ([.passOn (relayLine m'.self frame.body) outcome, .handUp f], m''.onFlood f) := by
  unfold attend
  rw [h]
  dsimp only
  rw [if_neg hself, hsent]
  cases outcome <;> rfl

/-- An envelope that is new is passed on, whatever comes of that but a wait, and handed up. -/
theorem attend_of_taken (h : m.takeIn frame = some (f, m'))
    (hunblocked : (attend m frame).2.1 ≠ .blocked) :
    ∃ outcome, outcome ≠ .blocked ∧ (attend m frame).1 = deedsOn m'.self outcome (frame, f) ∧
      Member.Extends m' (attend m frame).2.2 := by
  unfold deedsOn
  by_cases hself : frame.sender = m'.self
  · rw [attend_of_own h hself]
    refine ⟨.done, nofun, ?_, m'.extends_onFlood f⟩
    rw [if_pos hself, List.nil_append]
  · have hextends := m'.extends_multicast .reliable frame.body
    rcases hsent : m'.multicast .reliable frame.body with ⟨outcome, m''⟩
    have hattend := attend_of_other h hself hsent
    by_cases houtcome : outcome = .blocked
    · rw [hattend, if_pos houtcome] at hunblocked
      exact absurd rfl hunblocked
    rw [hsent] at hextends
    rw [hattend, if_neg houtcome]
    refine ⟨outcome, houtcome, ?_, hextends.trans (m''.extends_onFlood f)⟩
    rw [if_neg hself, List.singleton_append]

/-- A line that is passed on to all goes into the queue of every live member that is read, next
    after what waits there. -/
theorem waiting_of_passedOn {line : String} (h : .passOn line .done ∈ (attend m frame).1)
    {q : NodeId} (hlive : m.peers.isLive q = true) (hreader : m.peers.hasReader q = true) :
    m.peers.waiting q ++ [line] <+: (attend m frame).2.2.peers.waiting q := by
  cases htake : m.takeIn frame with
  | none =>
    rw [attend_of_not_taken htake] at h
    cases h
  | some x =>
    obtain ⟨f, m'⟩ := x
    obtain ⟨-, -, rfl⟩ := Member.takeIn_eq_some htake
    by_cases hself : frame.sender = m.self
    · rw [attend_of_own htake hself, List.mem_singleton] at h
      cases h
    rcases hsent : Member.multicast { m with received := f.id :: m.received } .reliable frame.body
      with ⟨outcome, m''⟩
    have hattend := attend_of_other htake hself hsent
    rw [hattend] at h ⊢
    split at h
    · rw [List.mem_singleton] at h
      cases h
    rename_i hunblocked
    rw [List.mem_pair] at h
    obtain ⟨rfl, rfl⟩ := Deed.passOn.inj (h.resolve_right nofun)
    rw [if_neg hunblocked]
    have hqueued : m.peers.waiting q ++ [relayLine m.self frame.body] <+: m''.peers.waiting q := by
      rw [Member.waiting_multicast hsent hlive hreader]
      exact List.prefix_rfl
    exact hqueued.trans ((m''.extends_onFlood f).waiting q)

/-! ## Frames one after the other -/

/-- Frames come to a member on the reliable path, and are handled without a wait. What else happens
    to it leaves its name and what it has seen alone. -/
inductive History : Member → List Frame → List Deed → Member → Prop
  | nil (m : Member) : History m [] [] m
  | meanwhile {m m' m'' : Member} {frames : List Frame} {deeds : List Deed}
      (self : m'.self = m.self) (received : m'.received = m.received)
      (rest : History m' frames deeds m'') : History m frames deeds m''
  | frame {m m' : Member} {frame : Frame} {frames : List Frame} {deeds : List Deed}
      (path : ControlPath.ofText? frame.path = some .reliable)
      (unblocked : (m.receive frame).1 ≠ .blocked)
      (rest : History (m.receive frame).2 frames deeds m') :
      History m (frame :: frames) ((attend m frame).1 ++ deeds) m'

/-- The first copies among frames of the ids that were not seen before them. -/
def newCopies (seen : List MessageId) (frames : List Frame) : List Copy :=
  firstCopies ((copies frames).filter fun c => !seen.contains c.id)

theorem newCopies_nil (frames : List Frame) : newCopies [] frames = firstCopies (copies frames) :=
  congrArg firstCopies (List.filter_eq_self.2 fun _ _ => rfl)

theorem newCopies_of_unreadable (h : (Record.decode? frame.body : Option Flood) = none)
    (seen : List MessageId) (frames : List Frame) :
    newCopies seen (frame :: frames) = newCopies seen frames := by
  unfold newCopies copies
  rw [List.filterMap_cons, h]
  rfl

theorem newCopies_of_decode (h : Record.decode? frame.body = some f) (seen : List MessageId)
    (frames : List Frame) : newCopies seen (frame :: frames) =
      if f.id ∈ seen then newCopies seen frames
      else (frame, f) :: newCopies (f.id :: seen) frames := by
  have hcopies : copies (frame :: frames) = (frame, f) :: copies frames := by
    unfold copies
    rw [List.filterMap_cons, h]
    rfl
  unfold newCopies
  rw [hcopies, List.filter_cons]
  by_cases hseen : f.id ∈ seen
  · have hcontains : seen.contains f.id = true := List.contains_iff_mem.2 hseen
    rw [if_pos hseen, hcontains]
    rfl
  · have hcontains : seen.contains f.id = false :=
      Bool.eq_false_iff.2 fun hc => hseen (List.contains_iff_mem.1 hc)
    rw [if_neg hseen, hcontains]
    -- Of the others, those count that were not seen and are no copies of this one.
    have hothers := firstCopies_filter (fun id => decide (id ≠ f.id))
      ((copies frames).filter fun c => !seen.contains c.id)
    rw [List.filter_filter] at hothers
    refine congrArg (List.cons _) (hothers.symm.trans (congrArg firstCopies ?_))
    refine List.filter_congr fun c _ => ?_
    rw [List.contains_cons, Bool.not_or, decide_not]
    rfl

theorem newCopies_of_not_taken (h : m.takeIn frame = none) (frames : List Frame) :
    newCopies m.received (frame :: frames) = newCopies m.received frames := by
  cases hdecode : (Record.decode? frame.body : Option Flood) with
  | none => exact newCopies_of_unreadable hdecode m.received frames
  | some f =>
    rw [Member.takeIn_of_decode hdecode] at h
    split at h
    · rename_i hseen
      rw [newCopies_of_decode hdecode, if_pos hseen]
    · cases h

theorem not_mem_of_mem_newCopies {seen : List MessageId} {frames : List Frame} {c : Copy}
    (h : c ∈ newCopies seen frames) : c.id ∉ seen := by
  have hkept := (List.mem_filter.1 ((firstCopies_sublist _).subset h)).2
  exact fun hseen => by simp [hseen] at hkept

theorem History.handles_new_copies {frames : List Frame} {deeds : List Deed}
    (h : History m frames deeds m') :
    ∃ outcome : MessageId → SendOutcome, (∀ id, outcome id ≠ .blocked) ∧
      deeds = (newCopies m.received frames).flatMap (fun c => deedsOn m.self (outcome c.id) c) ∧
      m'.received = ((newCopies m.received frames).map Copy.id).reverse ++ m.received := by
  induction h with
  | nil m => exact ⟨fun _ => .done, nofun, rfl, rfl⟩
  | meanwhile self received rest ih =>
    rw [self, received] at ih
    exact ih
  | @frame m m' frame frames deeds path unblocked rest ih =>
    obtain ⟨hmember, hwait⟩ := Member.receive_outcome path m
    rw [hmember, ← attend_eq] at ih
    have hunblocked := hwait unblocked
    rw [← attend_eq] at hunblocked
    cases htake : m.takeIn frame with
    | none =>
      rw [attend_of_not_taken htake] at ih ⊢
      rw [newCopies_of_not_taken htake]
      exact ih
    | some x =>
      obtain ⟨f, m₁⟩ := x
      obtain ⟨hdecode, hnew, rfl⟩ := Member.takeIn_eq_some htake
      obtain ⟨first, hfirst, hdeeds, hextends⟩ := attend_of_taken htake hunblocked
      obtain ⟨outcome, houtcome, hrest, hreceived⟩ := ih
      rw [hextends.self, hextends.received] at hrest
      rw [hextends.received] at hreceived
      rw [newCopies_of_decode hdecode, if_neg hnew]
      refine ⟨Function.update outcome f.id first, fun id => ?_, ?_, ?_⟩
      · rw [Function.update_apply]
        split
        · exact hfirst
        · exact houtcome id
      · rw [hdeeds, hrest, List.flatMap_cons, Function.update_self]
        -- The others are no copies of this one.
        refine congrArg (_ ++ ·) (List.flatMap_congr fun c hc => ?_)
        have hne : c.id ≠ f.id :=
          fun heq => not_mem_of_mem_newCopies hc (heq ▸ List.mem_cons_self)
        rw [Function.update_of_ne hne]
      · rw [hreceived, List.map_cons, List.reverse_cons, List.append_assoc, List.singleton_append]

/-- Whether a frame holds an envelope. -/
def holdsEnvelope (frame : Frame) : Bool := (Record.decode? frame.body : Option Flood).isSome

/-- Frames that hold no envelope might as well not have come. -/
theorem History.without_unreadable {frames : List Frame} {deeds : List Deed}
    (h : History m frames deeds m') : History m (frames.filter holdsEnvelope) deeds m' := by
  induction h with
  | nil m => exact .nil m
  | meanwhile self received rest ih => exact .meanwhile self received ih
  | @frame m m' frame frames deeds path unblocked rest ih =>
    rw [List.filter_cons]
    cases hdecode : (Record.decode? frame.body : Option Flood) with
    | some f =>
      rw [if_pos (by unfold holdsEnvelope; rw [hdecode]; rfl)]
      exact .frame path unblocked ih
    | none =>
      have hattend : attend m frame = ([], .done, m) :=
        attend_of_not_taken (Member.takeIn_of_unreadable hdecode)
      rw [(Member.receive_outcome path m).1, ← attend_eq, hattend] at ih
      rw [if_neg (by unfold holdsEnvelope; rw [hdecode]; decide), hattend]
      exact ih

/-- Whatever frames come on the reliable path to a new member, and whatever else happens to it
    meanwhile, as long as nothing has to wait: it handles the first copy of each id that comes in
    an envelope that can be read, in the order in which these came. It passes each of them on,
    unless it came from the member itself, with its body as it came and in the member's own name,
    and then hands it up, whatever became of passing it on. It has seen as many ids as there are,
    and what cannot be read might as well not have come. A line that was passed on is in the
    queue of every live member that is read. -/
theorem handles_each_id_once {self : NodeId} {nodes : List Node} {capacity : Nat}
    {frames : List Frame} {deeds : List Deed}
    (h : History (Member.init self nodes capacity) frames deeds m) :
    (∃ outcome : MessageId → SendOutcome, (∀ id, outcome id ≠ .blocked) ∧
      deeds = (firstCopies (copies frames)).flatMap fun c => deedsOn self (outcome c.id) c) ∧
    m.received.length = ((copies frames).map Copy.id).toFinset.card ∧
    History (Member.init self nodes capacity) (frames.filter holdsEnvelope) deeds m ∧
    (∀ body, Record.decode? (Bytes.ofText (relayLine self body))
      = some (Frame.mk self ControlPath.reliable.text body)) ∧
    ∀ (m : Member) (frame : Frame) (line : String), .passOn line .done ∈ (attend m frame).1 →
      ∀ q, m.peers.isLive q = true → m.peers.hasReader q = true →
        m.peers.waiting q ++ [line] <+: (m.onReliable frame).2.peers.waiting q := by
  obtain ⟨outcome, houtcome, hdeeds, hreceived⟩ := h.handles_new_copies
  have hnothing : (Member.init self nodes capacity).received = [] := rfl
  rw [hnothing, newCopies_nil] at hdeeds hreceived
  refine ⟨⟨outcome, houtcome, hdeeds⟩, ?_, h.without_unreadable,
    fun body => Record.decode?_encode (Frame.mk self ControlPath.reliable.text body),
    fun m frame line hline q hlive hreader => ?_⟩
  · rw [hreceived, List.append_nil, List.length_reverse, List.length_map, length_firstCopies]
  · rw [← attend_eq]
    exact waiting_of_passedOn hline hlive hreader

/-- An envelope, a copy of it that spells its id in another way, something else, and another
    envelope. -/
def respelled : List Frame :=
  [⟨"b", ControlPath.reliable.text, Record.encode (Flood.mk ⟨10⟩ "/x" [])⟩,
    ⟨"c", ControlPath.reliable.text, Bytes.ofText
      "\x7b\"id\":\"0000000000000000000000000000000A\",\"path\":\"/y\",\"body\":\"\"\x7d"⟩,
    ⟨"c", ControlPath.reliable.text, []⟩,
    ⟨"b", ControlPath.reliable.text, Record.encode (Flood.mk ⟨11⟩ "/x" [])⟩]

/-- The member is stopped before the last envelope comes, and its queue is full by then. -/
theorem handles_each_id_once_of_respelled :
    ∃ deeds m, History (Member.init "a" [⟨"a", .v4 .loopback 1⟩] 1) respelled deeds m ∧
      m.received.length = 2 ∧
      deeds = [.passOn (relayLine "a" (Record.encode (Flood.mk ⟨10⟩ "/x" []))) .done,
        .handUp ⟨⟨10⟩, "/x", []⟩,
        .passOn (relayLine "a" (Record.encode (Flood.mk ⟨11⟩ "/x" []))) (.failed .channelClosed),
        .handUp ⟨⟨11⟩, "/x", []⟩] := by
  have hpath := ControlPath.ofText?_text .reliable
  have hstop (m : Member) {frames : List Frame} {deeds : List Deed} {m' : Member} :
      History m.stop frames deeds m' → History m frames deeds m' := .meanwhile rfl rfl
  have h := @History.frame (Member.init "a" [⟨"a", .v4 .loopback 1⟩] 1) _
    ⟨"b", ControlPath.reliable.text, Record.encode (Flood.mk ⟨10⟩ "/x" [])⟩
    respelled.tail _ hpath (by decide +kernel)
    (.frame hpath (by decide +kernel) (.frame hpath (by decide +kernel)
      (hstop _ (.frame hpath (by decide +kernel) (.nil _)))))
  exact ⟨_, _, h, (handles_each_id_once h).2.1.trans (by decide +kernel), by decide +kernel⟩

end Intake

end AgreedOrder
