/-
  AgreedOrder.Proofs.Flooding.Onward

  What a step does. A member's group only shrinks, and only by members that
  have crashed. Three kinds of steps are told apart: an envelope is multicast
  by its origin, an envelope comes to a member that has not seen it, and all
  the others, which move lines onward and say nothing new.

    * `Member.Steady`, `Step.steady` — how a member changes.
    * `Onward` — what the steps that say nothing new have in common.
    * `Step.cases` — the three kinds of steps.
-/

import AgreedOrder.Proofs.Flooding.Lines

namespace AgreedOrder

/-! ## One member -/

/-- How a member changes: who is out of its group, or is not read any more, stays so, and members
    that have not crashed are kept. -/
structure Member.Steady (running : NodeId → Prop) (m m' : Member) : Prop where
  self : m'.self = m.self
  stopped : m'.stopped = false → m.stopped = false
  live : ∀ q, m'.peers.isLive q = true → m.peers.isLive q = true
  reading : ∀ q, m'.peers.hasReader q = true → m.peers.hasReader q = true
  kept : ∀ q, running q → m.peers.isLive q = true → m'.peers.isLive q = true
  kept_reading : ∀ q, running q → m.peers.hasReader q = true → m'.peers.hasReader q = true
  roomy : m.peers.Roomy → m'.peers.Roomy

namespace Flooding

open Json

variable {g : Layout} {s s' : State}

theorem steady_refl {running : NodeId → Prop} (m : Member) : m.Steady running m :=
  ⟨rfl, id, fun _ => id, fun _ => id, fun _ _ => id, fun _ _ => id, id⟩

/-- A member whose group and readers are as before has changed in nothing that matters here. -/
theorem steady_of_eq {running : NodeId → Prop} {m m' : Member} (hself : m'.self = m.self)
    (hstopped : m'.stopped = m.stopped) (hlive : ∀ q, m'.peers.isLive q = m.peers.isLive q)
    (hreader : ∀ q, m'.peers.hasReader q = m.peers.hasReader q)
    (hroomy : m.peers.Roomy → m'.peers.Roomy) : m.Steady running m' where
  self := hself
  stopped := fun h => hstopped ▸ h
  live := fun q h => hlive q ▸ h
  reading := fun q h => hreader q ▸ h
  kept := fun q _ h => (hlive q).trans h
  kept_reading := fun q _ h => (hreader q).trans h
  roomy := hroomy

theorem steady_trans {R R' : NodeId → Prop} {m m' m'' : Member} (hR : ∀ q, R q → R' q)
    (h : m.Steady R m') (h' : m'.Steady R' m'') : m.Steady R m'' where
  self := h'.self.trans h.self
  stopped := fun hs => h.stopped (h'.stopped hs)
  live := fun q hq => h.live q (h'.live q hq)
  reading := fun q hq => h.reading q (h'.reading q hq)
  kept := fun q hr hq => h'.kept q (hR q hr) (h.kept q hr hq)
  kept_reading := fun q hr hq => h'.kept_reading q (hR q hr) (h.kept_reading q hr hq)
  roomy := fun hroomy => h'.roomy (h.roomy hroomy)

/-- One member changes, and the others do not. -/
theorem steady_update {p : NodeId} {m : Member} (h : (s.members p).Steady s.Running m)
    (q : NodeId) : (s.members q).Steady s.Running (Function.update s.members p m q) := by
  by_cases hq : q = p
  · rw [hq, Function.update_self]
    exact h
  · rw [Function.update_of_ne hq]
    exact steady_refl _

theorem steady_startSending {p : NodeId} {body : Bytes} (envelope : Option Flood)
    (targets : List NodeId) (q : NodeId) :
    (s.members q).Steady s.Running ((s.startSending p body envelope targets).members q) := by
  apply steady_update
  exact steady_of_eq rfl rfl (fun _ => PeerTable.isLive_countForAll _ _ _) (fun _ => rfl) id

theorem steady_enqueue (x : Sending) (r : NodeId) (l : List Sending) (q : NodeId) :
    (s.members q).Steady s.Running ((s.enqueue x r l).members q) := by
  apply steady_update
  have hroomy (h : (s.members x.node).peers.Roomy) := h.enqueue r x.line
  rcases (s.members x.node).peers.enqueue_cases r x.line with ⟨b, -, -, heq⟩ | ⟨o, -, heq, -⟩
  · rw [heq] at hroomy ⊢
    refine steady_of_eq rfl rfl (fun _ => rfl) (fun _ => ?_) hroomy
    exact PeerTable.hasReader_pushLine _ _ _ _
  · rw [heq]
    exact steady_refl _

theorem steady_write {p r : NodeId} {line : String} {peers : PeerTable}
    (h : (s.members p).peers.takeLine r = (some (.line line), peers)) (q : NodeId) :
    (s.members q).Steady s.Running ((s.write p r line peers).members q) := by
  obtain ⟨-, -, hpeers, -, -, hreader⟩ := PeerTable.takeLine_eq_line h
  have hroomy (hr : (s.members p).peers.Roomy) : peers.Roomy := by
    have htaken := hr.takeLine r
    rw [h] at htaken
    exact htaken
  apply steady_update
  refine steady_of_eq rfl rfl (fun q => ?_) hreader hroomy
  show peers.peers.contains q = _
  rw [hpeers]
  rfl

theorem steady_stop {p : NodeId} (q : NodeId) :
    (s.members q).Steady s.Running ((s.setMember p (s.members p).stop).members q) := by
  apply steady_update
  exact ⟨rfl, nofun, fun _ => id, fun _ => id, fun _ _ => id, fun _ _ => id, id⟩

theorem steady_dropReader {p r : NodeId} (crashed : ¬s.Running r) (q : NodeId) :
    (s.members q).Steady s.Running
      ((s.setPeers p ((s.members p).peers.dropReader r)).members q) := by
  apply steady_update
  refine ⟨rfl, id, fun _ => id, fun k hk => ?_, fun _ _ => id, fun k hrun hk => ?_,
    fun h => h.modify rfl fun _ => rfl⟩
  · rw [PeerTable.hasReader_dropReader, Bool.and_eq_true] at hk
    exact hk.2
  · have hne : k ≠ r := fun h => crashed (h ▸ hrun)
    rw [PeerTable.hasReader_dropReader, decide_eq_false hne, hk]
    rfl

theorem steady_eject {p r : NodeId} (crashed : ¬s.Running r) (q : NodeId) :
    (s.members q).Steady s.Running ((s.setMember p ((s.members p).eject r).2).members q) := by
  apply steady_update
  refine ⟨rfl, id, fun k hk => ?_, fun k hk => ?_, fun k hrun hk => ?_, fun k _ hk => ?_,
    fun h => h.remove r⟩
  · rw [show ((s.members p).eject r).2.peers = ((s.members p).peers.remove r).2 from rfl,
      PeerTable.isLive_remove, Bool.and_eq_true] at hk
    exact hk.2
  · exact (PeerTable.hasReader_remove (s.members p).peers r k) ▸ hk
  -- Only the member that is taken out is live no more, and it has crashed.
  · have hne : k ≠ r := fun h => crashed (h ▸ hrun)
    rw [show ((s.members p).eject r).2.peers = ((s.members p).peers.remove r).2 from rfl,
      PeerTable.isLive_remove, decide_eq_false hne, hk]
    rfl
  · exact (PeerTable.hasReader_remove (s.members p).peers r k).trans hk

/-- Whether a member runs is left alone by changes of its queues. -/
theorem running_setMember {p : NodeId} {m : Member} (h : m.stopped = (s.members p).stopped)
    (q : NodeId) : (s.setMember p m).Running q ↔ s.Running q := by
  show (Function.update s.members p m q).stopped = false ↔ (s.members q).stopped = false
  rw [update_congr (·.stopped) h]

/-- What a member takes in it has heard. -/
theorem hear_of_takeIn {m m' : Member} {frame : Frame} {f : Flood}
    (h : m.takeIn frame = some (f, m')) : m' = hear m f := by
  obtain ⟨-, -, rfl⟩ := Member.takeIn_eq_some h
  rfl

theorem steady_hear {r : NodeId} {f : Flood} (q : NodeId) :
    (s.members q).Steady s.Running ((s.setMember r (hear (s.members r) f)).members q) := by
  apply steady_update
  exact steady_of_eq rfl rfl (fun _ => rfl) (fun _ => rfl) id

/-- Hearing an envelope leaves the group as it is, and so does what follows. -/
theorem steady_arrive (s : State) (r : NodeId) (line : String) (targets : List NodeId)
    (q : NodeId) : (s.members q).Steady s.Running ((s.arrive r line targets).members q) := by
  unfold State.arrive
  split
  · exact steady_refl _
  split
  · rename_i frame _ _
    unfold State.receive
    cases htake : (s.members r).takeIn frame with
    | none => exact steady_refl _
    | some found =>
      obtain ⟨f, m⟩ := found
      rw [hear_of_takeIn htake]
      dsimp only
      split
      · exact steady_hear q
      · -- The member is changed twice over: it hears the envelope and starts a multicast.
        have hrunning : ∀ k, s.Running k → (s.setMember r (hear (s.members r) f)).Running k :=
          fun k hk => (update_congr (·.stopped) (by rfl) k).trans hk
        exact steady_trans hrunning (steady_hear q) (steady_startSending (some f) targets q)
  · exact steady_refl _

/-- No step does more to a member. -/
theorem Step.steady (h : Step g s s') (q : NodeId) :
    (s.members q).Steady s.Running (s'.members q) := by
  cases h with
  | @multicast p id path body targets => exact steady_startSending none targets q
  | enqueue => exact steady_enqueue _ _ _ q
  | finish | giveUp | lose => exact steady_refl _
  | write _ oldest => exact steady_write oldest q
  | @arrive h before after targets =>
    exact steady_arrive { s with underWay := before ++ after } h.target h.line targets q
  | crash => exact steady_stop q
  | dropReader _ _ crashed => exact steady_dropReader crashed q
  | eject _ _ crashed => exact steady_eject crashed q

theorem Step.running (h : Step g s s') {q : NodeId} (hq : s'.Running q) : s.Running q :=
  (h.steady q).stopped hq

/-! ## Kinds of steps -/

/-- The envelopes that wait at members to be routed, once their multicasts are over. -/
def State.pending (s : State) : List (NodeId × Flood) :=
  s.sendings.flatMap fun x => x.envelope.toList.map (x.node, ·)

/-- The envelopes that members were handed, or will be. -/
def State.handled (s : State) : List (NodeId × Flood) := s.routed ++ s.pending

/-- A step that says nothing new. A line that vanishes is of no use any more. -/
structure Onward (s s' : State) : Prop where
  received : ∀ p, (s'.members p).received = (s.members p).received
  issued : s'.issued = s.issued
  passed : s'.passed = s.passed
  handled : s'.handled.Perm s.handled
  around_of : ∀ a b line, s'.Around a b line → s.Around a b line
  around : ∀ a b line, s.Around a b line → s'.Around a b line ∨ ¬s.Running a ∨ ¬s.Running b ∨
    (s.members a).peers.hasReader b = false ∨
    ∃ f, line = lineOf a f ∧ f.id ∈ (s.members b).received

/-- A member multicasts an envelope of its own. -/
structure Opening (g : Layout) (s s' : State) (p : NodeId) (f : Flood) : Prop where
  member : p ∈ g.ids
  running : s.Running p
  fresh : ∀ x ∈ s.issued, x.2.id ≠ f.id
  received : ∀ r, (s'.members r).received = (s.members r).received
  issued : s'.issued = s.issued ++ [(p, f)]
  passed : s'.passed = s.passed
  handled : s'.handled = s.handled
  around : ∀ a b line, s'.Around a b line ↔ s.Around a b line ∨
    a = p ∧ line = lineOf p f ∧ (s.members p).peers.isLive b = true

/-- A line from one member brings another one an envelope that it has not seen. Unless the two are
    the same, it multicasts the envelope in turn. -/
structure FirstArrival (s s' : State) (p q : NodeId) (f : Flood) : Prop where
  running : s.Running q
  line : s.Around p q (lineOf p f)
  new : f.id ∉ (s.members q).received
  received : ∀ r, (s'.members r).received
    = if r = q then f.id :: (s.members r).received else (s.members r).received
  issued : s'.issued = s.issued
  passed : s'.passed = if p = q then s.passed else s.passed ++ [(q, f.id)]
  handled : s'.handled.Perm ((q, f) :: s.handled)
  around_of : ∀ a b line, s'.Around a b line → s.Around a b line ∨
    p ≠ q ∧ a = q ∧ line = lineOf q f ∧ (s.members q).peers.isLive b = true
  around : ∀ a b line, s.Around a b line → s'.Around a b line ∨
    a = p ∧ b = q ∧ line = lineOf p f
  passed_on : p ≠ q → ∀ b, (s.members q).peers.isLive b = true → s'.Around q b (lineOf q f)

/-- A change of one member that leaves its queues and what it has seen alone. -/
theorem onward_setMember {p : NodeId} {m : Member}
    (hreceived : m.received = (s.members p).received)
    (hwaiting : ∀ q, m.peers.waiting q = (s.members p).peers.waiting q) :
    Onward s (s.setMember p m) where
  received := update_congr (·.received) hreceived
  issued := rfl
  passed := rfl
  handled := List.Perm.refl _
  around_of := fun _ _ _ => (around_setMember hwaiting).1
  around := fun _ _ _ h => Or.inl ((around_setMember hwaiting).2 h)

theorem onward_enqueue {x : Sending} {q : NodeId} {rest : List NodeId}
    {before after : List Sending} (sending : s.sendings = before ++ x :: after)
    (next : x.targets = q :: rest)
    (room : ((s.members x.node).peers.enqueue q x.line).1 ≠ .full) :
    Onward s (s.enqueue x q (before ++ { x with targets := rest } :: after)) where
  received := update_congr (·.received) rfl
  issued := rfl
  passed := rfl
  handled := by
    -- The multicast stands where it stood, with the same envelope.
    have hsame : (s.enqueue x q (before ++ { x with targets := rest } :: after)).pending
        = s.pending := by
      simp only [State.pending, State.enqueue, sending, List.flatMap_append, List.flatMap_cons]
    rw [State.handled, hsame]
    exact List.Perm.refl _
  around_of := fun _ _ _ => around_of_enqueue sending next
  around := fun a b line h => by
    rcases around_enqueue sending next room h with h | ⟨-, -, h⟩
    · exact Or.inl h
    · exact Or.inr (Or.inr (Or.inr (Or.inl h)))

/-- A multicast that ends has no line left to send, or its member has crashed. -/
theorem onward_finish {x : Sending} {before after : List Sending}
    (sending : s.sendings = before ++ x :: after) (hend : x.targets = [] ∨ ¬s.Running x.node) :
    Onward s (s.finish x (before ++ after)) where
  received := fun _ => rfl
  issued := rfl
  passed := rfl
  handled := by
    simp only [State.handled, State.pending, State.finish, sending, List.flatMap_append,
      List.flatMap_cons, List.append_assoc]
    apply List.Perm.append_left
    rw [← List.append_assoc, ← List.append_assoc]
    exact List.Perm.append_right _ List.perm_append_comm
  around_of := fun _ _ _ => (around_finish sending).1
  around := fun a b line h => by
    rcases (around_finish sending).2 h with h | ⟨ha, hb⟩
    · exact Or.inl h
    -- A line to a target vanishes, and so the member has crashed.
    · rcases hend with hnone | hcrashed
      · rw [hnone] at hb
        cases hb
      · exact Or.inr (Or.inl (ha ▸ hcrashed))

theorem onward_write {p q : NodeId} {line : String} {peers : PeerTable}
    (oldest : (s.members p).peers.takeLine q = (some (.line line), peers)) :
    Onward s (s.write p q line peers) where
  received := update_congr (·.received) rfl
  issued := rfl
  passed := rfl
  handled := List.Perm.refl _
  around_of := fun _ _ _ => (around_write oldest).1
  around := fun _ _ _ h => Or.inl ((around_write oldest).2 h)

/-- A line that leaves its link was of no use. -/
theorem onward_remove {h : Hop} {before after : List Hop}
    (underWay : s.underWay = before ++ h :: after)
    (useless : ¬s.Running h.source ∨ ¬s.Running h.target ∨
      ∃ f, h.line = lineOf h.source f ∧ f.id ∈ (s.members h.target).received) :
    Onward s { s with underWay := before ++ after } where
  received := fun _ => rfl
  issued := rfl
  passed := rfl
  handled := List.Perm.refl _
  around_of := fun _ _ _ ha => (around_remove underWay).2 (Or.inl ha)
  around := fun a b line ha => by
    rcases (around_remove underWay).1 ha with ha | rfl
    · exact Or.inl ha
    · rcases useless with hcrashed | hcrashed | hseen
      · exact Or.inr (Or.inl hcrashed)
      · exact Or.inr (Or.inr (Or.inl hcrashed))
      · exact Or.inr (Or.inr (Or.inr (Or.inr hseen)))

theorem received_startSending {p : NodeId} {body : Bytes} (envelope : Option Flood)
    (targets : List NodeId) (r : NodeId) :
    ((s.startSending p body envelope targets).members r).received = (s.members r).received := by
  apply update_congr (·.received)
  rfl

theorem opening_multicast {p : NodeId} {f : Flood} {targets : List NodeId}
    (hself : (s.members p).self = p) (member : p ∈ g.ids) (running : s.Running p)
    (fresh : ∀ x ∈ s.issued, x.2.id ≠ f.id)
    (order : targets.Perm (s.members p).peers.liveIds) :
    Opening g s (s.multicast p f targets) p f where
  member := member
  running := running
  fresh := fresh
  received := received_startSending none targets
  issued := rfl
  passed := rfl
  handled := by
    simp only [State.handled, State.pending, State.multicast, State.startSending,
      State.setMember, List.flatMap_append, List.flatMap_cons, List.flatMap_nil,
      Option.toList_none, List.map_nil, List.append_nil]
  around := fun a b line => by
    rw [show (s.multicast p f targets).Around a b line ↔
      (s.startSending p (Record.encode f) none targets).Around a b line from Iff.rfl,
      around_startSending order, frameLine_encode hself f]

section FirstArrival

variable {p q : NodeId} {f : Flood} {before after : List Hop}

/-- What has reached a member when a line arrives there. -/
theorem received_hear (s : State) (q : NodeId) (f : Flood) (r : NodeId) :
    ((s.setMember q (hear (s.members q) f)).members r).received
      = if r = q then f.id :: (s.members r).received else (s.members r).received := by
  show (Function.update s.members q (hear (s.members q) f) r).received = _
  by_cases hr : r = q
  · rw [hr, Function.update_self, if_pos rfl]
    rfl
  · rw [Function.update_of_ne hr, if_neg hr]

theorem around_hear (s : State) (q : NodeId) (f : Flood) {a b : NodeId} {line : String} :
    (s.setMember q (hear (s.members q) f)).Around a b line ↔ s.Around a b line :=
  around_setMember fun _ => rfl

theorem around_passOn {body : Bytes} {targets : List NodeId} {a b : NodeId} {line : String} :
    (s.passOn q f body targets).Around a b line ↔
      (s.startSending q body (some f) targets).Around a b line :=
  Iff.rfl

/-- A member's own line brings it an envelope, which is routed at once. -/
theorem firstArrival_route (underWay : s.underWay = before ++ ⟨q, q, lineOf q f⟩ :: after)
    (running : s.Running q) (new : f.id ∉ (s.members q).received) :
    FirstArrival s
      ((State.setMember { s with underWay := before ++ after } q (hear (s.members q) f)).route q f)
      q q f := by
  -- The line that arrived is the only one that is gone.
  have hgone (a b : NodeId) (line : String) : s.Around a b line ↔
      ({ s with underWay := before ++ after } : State).Around a b line ∨
        (⟨a, b, line⟩ : Hop) = ⟨q, q, lineOf q f⟩ := around_remove underWay
  constructor
  · exact running
  · exact (hgone q q _).2 (Or.inr rfl)
  · exact new
  · exact received_hear { s with underWay := before ++ after } q f
  · rfl
  · exact (if_pos rfl).symm
  · show (s.routed ++ [(q, f)] ++ s.pending).Perm ((q, f) :: (s.routed ++ s.pending))
    rw [List.append_assoc]
    exact List.perm_middle
  · intro a b line ha
    exact Or.inl ((hgone a b line).2 (Or.inl ((around_hear _ q f).1 ha)))
  · intro a b line ha
    rcases (hgone a b line).1 ha with ha | ha
    · exact Or.inl ((around_hear _ q f).2 ha)
    · exact Or.inr (Hop.mk.inj ha)
  · intro hne
    exact absurd rfl hne

/-- Another member's line brings a member an envelope, which it multicasts in turn. -/
theorem firstArrival_passOn {targets : List NodeId} (hself : (s.members q).self = q) (hne : p ≠ q)
    (underWay : s.underWay = before ++ ⟨p, q, lineOf p f⟩ :: after) (running : s.Running q)
    (new : f.id ∉ (s.members q).received)
    (order : targets.Perm (s.members q).peers.liveIds) :
    FirstArrival s
      ((State.setMember { s with underWay := before ++ after } q (hear (s.members q) f)).passOn q f
        (Record.encode f) targets) p q f := by
  -- The line that arrived is gone.
  have hgone (a b : NodeId) (line : String) : s.Around a b line ↔
      ({ s with underWay := before ++ after } : State).Around a b line ∨
        (⟨a, b, line⟩ : Hop) = ⟨p, q, lineOf p f⟩ := around_remove underWay
  -- Its queues and its group are those from before it heard the envelope.
  have hmember : (State.setMember { s with underWay := before ++ after } q
      (hear (s.members q) f)).members q = hear (s.members q) f := Function.update_self ..
  have htargets : targets.Perm ((State.setMember { s with underWay := before ++ after } q
      (hear (s.members q) f)).members q).peers.liveIds := perm_setMember (by rfl) order
  -- A line to each live member is new.
  have hstart (a b : NodeId) (line : String) :
      ((State.setMember { s with underWay := before ++ after } q (hear (s.members q) f)).passOn q f
        (Record.encode f) targets).Around a b line ↔
      ({ s with underWay := before ++ after } : State).Around a b line ∨
        a = q ∧ line = lineOf q f ∧ (s.members q).peers.isLive b = true := by
    rw [around_passOn, around_startSending htargets, around_hear, hmember,
      show (hear (s.members q) f).frameLine .reliable (Record.encode f) = lineOf q f from
        frameLine_encode hself f]
    rfl
  constructor
  · exact running
  · exact (hgone p q _).2 (Or.inr rfl)
  · exact new
  · intro r
    exact (received_startSending (some f) targets r).trans
      (received_hear { s with underWay := before ++ after } q f r)
  · rfl
  · exact (if_neg hne).symm
  -- The envelope is handled when its multicast is over.
  · show (s.routed ++ (State.pending _)).Perm ((q, f) :: (s.routed ++ s.pending))
    simp only [State.pending, State.passOn, State.startSending, State.setMember,
      List.flatMap_append, List.flatMap_cons, List.flatMap_nil, Option.toList_some,
      List.map_cons, List.map_nil, List.append_nil]
    rw [← List.append_assoc]
    exact List.perm_append_comm
  · intro a b line ha
    rcases (hstart a b line).1 ha with ha | ⟨ha, hline, hlive⟩
    · exact Or.inl ((hgone a b line).2 (Or.inl ha))
    · exact Or.inr ⟨hne, ha, hline, hlive⟩
  · intro a b line ha
    rcases (hgone a b line).1 ha with ha | ha
    · exact Or.inl ((hstart a b line).2 (Or.inl ha))
    · exact Or.inr (Hop.mk.inj ha)
  · intro _ b hlive
    exact (hstart q b _).2 (Or.inr ⟨rfl, rfl, hlive⟩)

end FirstArrival

/-- A step says nothing new, or an envelope is multicast by its origin, or one comes to a member
    that has not seen it. -/
theorem Step.cases (hself : ∀ p, (s.members p).self = p)
    (hline : ∀ a b line, s.Around a b line → ∃ f, line = lineOf a f) (h : Step g s s') :
    Onward s s' ∨ (∃ p f, Opening g s s' p f) ∨ ∃ p q f, FirstArrival s s' p q f := by
  cases h with
  | multicast member running fresh order =>
    exact Or.inr (Or.inl ⟨_, _, opening_multicast (hself _) member running fresh order⟩)
  | enqueue _ sending next room => exact Or.inl (onward_enqueue sending next room)
  | finish _ sending complete => exact Or.inl (onward_finish sending (Or.inl complete))
  | giveUp stopped sending => exact Or.inl (onward_finish sending (Or.inr stopped))
  | write _ oldest => exact Or.inl (onward_write oldest)
  | @arrive h before after targets running underWay _ order =>
    obtain ⟨p, q, line⟩ := h
    obtain ⟨f, rfl⟩ := hline p q line ((around_remove underWay).2 (Or.inr rfl))
    -- An envelope that was seen before is dropped.
    by_cases hseen : f.id ∈ (s.members q).received
    · rw [arrive_of_seen (s := { s with underWay := before ++ after }) hseen]
      exact Or.inl (onward_remove underWay (Or.inr (Or.inr ⟨f, rfl, hseen⟩)))
    · rw [arrive_of_new (s := { s with underWay := before ++ after }) (hself q) hseen]
      refine Or.inr (Or.inr ⟨p, q, f, ?_⟩)
      split
      · rename_i hpq
        subst hpq
        exact firstArrival_route underWay running hseen
      · rename_i hpq
        exact firstArrival_passOn (hself q) hpq underWay running hseen order
  | lose underWay crashed =>
    exact Or.inl (onward_remove underWay (crashed.imp_right Or.inl))
  | crash => exact Or.inl (onward_setMember rfl fun _ => rfl)
  | dropReader =>
    exact Or.inl (onward_setMember rfl fun q => PeerTable.waiting_dropReader _ _ q)
  | eject => exact Or.inl (onward_setMember rfl fun q => PeerTable.waiting_remove _ _ q)

end Flooding

end AgreedOrder
