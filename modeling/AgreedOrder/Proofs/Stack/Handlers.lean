/-
  AgreedOrder.Proofs.Stack.Handlers

  What the handlers of a member do when they need not wait for room are moves
  of the whole stack: sending is started, the line goes into one queue after
  the other, and what was to follow comes after that.

    * `moves_multicast`, `moves_passOn`, `moves_unicast` — sending.
    * `moves_onFlood`, `moves_receiveLine` — an envelope, and a line.
    * `steps_submit`, `moves_announce` — a message, and its agreement.
-/

import AgreedOrder.Proofs.Flooding.Handlers
import AgreedOrder.Proofs.Protocol.Handlers
import AgreedOrder.Proofs.Stack.Wiring

namespace AgreedOrder.Stack

open Json
open Protocol (Roster)
open Flooding (Sending Hop steps_enqueueAll running_setMember hear hear_of_takeIn)

variable {g : Roster} {n : Flooding.State} {s : State} {p q : NodeId} {m : Member} {f : Flood}
  {body : Bytes}

/-! ## Sending -/

theorem setMember_self (n : Flooding.State) (p : NodeId) : n.setMember p (n.members p) = n := by
  unfold Flooding.State.setMember
  rw [Function.update_eq_self]

theorem setMember_setMember (n : Flooding.State) (p : NodeId) (m m' : Member) :
    (n.setMember p m).setMember p m' = n.setMember p m' := by
  unfold Flooding.State.setMember
  rw [Function.update_idem]

/-- A sending that finds room in every queue is over in some moves. -/
theorem moves_sending {x : Sending} {sendings : List Sending} (running : n.Running x.node)
    (sending : n.sendings = sendings ++ [x])
    (h : Member.enqueueAll x.line x.targets (n.members x.node) = (.done, m)) :
    Relation.ReflTransGen (Move g) (s.setNet n)
      ((s.setNet (Flooding.sent n x sendings [] m)).finish { x with targets := [] }
        (sendings ++ [])) := by
  have hqueued := steps_enqueueAll (R := fun n n' => Move g (s.setNet n) (s.setNet n'))
    (fun _ sending next room => .enqueue (s := s.setNet _) sending next room) running sending h
  exact (hqueued.lift s.setNet fun _ _ move => move).tail (.finish rfl rfl)

theorem moves_sending_none {x : Sending} {sendings : List Sending} (running : n.Running x.node)
    (sending : n.sendings = sendings ++ [x]) (hnone : x.envelope = none)
    (h : Member.enqueueAll x.line x.targets (n.members x.node) = (.done, m)) :
    Relation.ReflTransGen (Move g) (s.setNet n)
      (s.setNet { n.setMember x.node m with sendings }) := by
  have hmoves := moves_sending (g := g) (s := s) running sending h
  have hdone : ({ x with targets := [] } : Sending).envelope = none := hnone
  rw [finish_of_none hdone] at hmoves
  simp only [Flooding.sent, Flooding.State.finish, Flooding.State.setMember, State.setNet, hnone,
    Option.toList_none, List.map_nil, List.append_nil] at hmoves
  exact hmoves

/-- An envelope that is passed on is handled when that is over. -/
theorem moves_sending_some {x : Sending} {sendings : List Sending} (running : n.Running x.node)
    (sending : n.sendings = sendings ++ [x]) (hsome : x.envelope = some f)
    (h : Member.enqueueAll x.line x.targets (n.members x.node) = (.done, m)) :
    Relation.ReflTransGen (Move g) (s.setNet n)
      ((s.setNet ({ n.setMember x.node m with sendings }.route x.node f)).handle x.node f) := by
  have hmoves := moves_sending (g := g) (s := s) running sending h
  have hdone : ({ x with targets := [] } : Sending).envelope = some f := hsome
  rw [finish_of_some hdone] at hmoves
  simp only [Flooding.sent, Flooding.State.finish, Flooding.State.setMember, State.setNet, hsome,
    Option.toList_some, List.map_cons, List.map_nil, List.append_nil] at hmoves
  exact hmoves

/-- A multicast that finds room in every queue, and is passed on or not. -/
theorem enqueueAll_startSending (envelope : Option Flood)
    (h : (n.members p).multicast .reliable body = (.done, m)) :
    Member.enqueueAll ((n.members p).frameLine .reliable body) (n.members p).peers.liveIds
      ((n.startSending p body envelope (n.members p).peers.liveIds).members p) = (.done, m) := by
  rw [show (n.startSending p body envelope (n.members p).peers.liveIds).members p
    = { n.members p with
    peers := (n.members p).peers.countForAll ((n.members p).frameLine .reliable body) } from
      Function.update_self ..]
  exact h

/-- An envelope of a member's own goes to all. -/
theorem moves_multicast (running : n.Running p)
    (h : (n.members p).multicast .reliable body = (.done, m)) :
    Relation.ReflTransGen (Move g)
      (s.setNet (n.startSending p body none (n.members p).peers.liveIds))
      (s.setNet (n.setMember p m)) := by
  have hrunning : (n.startSending p body none (n.members p).peers.liveIds).Running p :=
    (running_setMember (by rfl) p).2 running
  have hmoves := moves_sending_none (g := g) (s := s) (x := ⟨p, _, _, none⟩) hrunning rfl rfl
    (enqueueAll_startSending none h)
  simp only [Flooding.State.startSending, Flooding.State.setMember, Function.update_idem]
    at hmoves
  exact hmoves

theorem moves_passOn (running : n.Running p)
    (h : (n.members p).multicast .reliable body = (.done, m)) :
    Relation.ReflTransGen (Move g)
      (s.setNet (n.startSending p body (some f) (n.members p).peers.liveIds))
      ((s.setNet ((n.setMember p m).route p f)).handle p f) := by
  have hrunning : (n.startSending p body (some f) (n.members p).peers.liveIds).Running p :=
    (running_setMember (by rfl) p).2 running
  have hmoves := moves_sending_some (g := g) (s := s) (x := ⟨p, _, _, some f⟩) hrunning rfl rfl
    (enqueueAll_startSending (some f) h)
  simp only [Flooding.State.startSending, Flooding.State.setMember, Function.update_idem]
    at hmoves
  exact hmoves

/-- What becomes of a unicast of a running member that need not wait. -/
theorem unicast_cases {m m' : Member} {path : ControlPath} {o : SendOutcome}
    (running : m.stopped = false) (h : m.unicast q path body = (o, m')) (hdone : o ≠ .blocked) :
    (∃ e, m.peers.countFor q (m.frameLine path body) = .error e ∧ m' = m) ∨
      ∃ peers, m.peers.countFor q (m.frameLine path body) = .ok peers ∧
        Member.enqueueAll (m.frameLine path body) [q] { m with peers } = (.done, m') := by
  unfold Member.unicast at h
  dsimp only at h
  cases hcount : m.peers.countFor q (m.frameLine path body) with
  | error e =>
    rw [hcount] at h
    exact Or.inl ⟨e, rfl, (Prod.mk.inj h).2.symm⟩
  | ok peers =>
    rw [hcount] at h
    dsimp only at h
    refine Or.inr ⟨peers, rfl, ?_⟩
    simp only [Member.enqueueAll]
    rcases peers.enqueue_cases q (m.frameLine path body) with ⟨-, -, -, heq⟩ | ⟨r, hr, heq, -⟩
    · rw [heq] at h ⊢
      exact congrArg (SendOutcome.done, ·) (Prod.mk.inj h).2
    -- A line that is not queued changes nothing; if the queue is full, the member waits.
    · rw [heq] at h ⊢
      cases r with
      | queued => exact absurd rfl hr
      | closed => exact congrArg (SendOutcome.done, ·) (Prod.mk.inj h).2
      | full =>
        have hwait := (Prod.mk.inj h).1
        simp only [Member.whenFull, running] at hwait
        exact absurd hwait.symm hdone

/-- A line to one member goes into its queue, or is turned away there. -/
theorem moves_unicast {path : ControlPath} {o : SendOutcome} (running : n.Running p)
    (h : (n.members p).unicast q path body = (o, m)) (hdone : o ≠ .blocked) :
    Relation.ReflTransGen (Move g) (s.setNet (startUnicast n p q path body))
      (s.setNet (n.setMember p m)) := by
  rcases unicast_cases running h hdone with ⟨e, hcount, rfl⟩ | ⟨peers, hcount, hqueued⟩
  · simp only [startUnicast, hcount, setMember_self]
    exact .refl
  · have hstart : startUnicast n p q path body =
        { n.setMember p { n.members p with peers } with sendings := n.sendings ++
          [⟨p, (n.members p).frameLine path body, [q], none⟩] } := by
      simp only [startUnicast, hcount]
    have hmember : (startUnicast n p q path body).members p = { n.members p with peers } := by
      rw [hstart]
      exact Function.update_self ..
    have hrunning : (startUnicast n p q path body).Running p := by
      rw [Flooding.State.Running, hmember]
      exact running
    have hsending : (startUnicast n p q path body).sendings = n.sendings ++
        [⟨p, (n.members p).frameLine path body, [q], none⟩] := by rw [hstart]
    have hmoves := moves_sending_none (g := g) (s := s) (m := m) hrunning hsending rfl
      (by rw [hmember]; exact hqueued)
    rw [hstart] at hmoves ⊢
    simp only [Flooding.State.setMember, Function.update_idem] at hmoves
    exact hmoves

/-! ## Handling -/

theorem moves_of_self (h : n.members p = m) :
    Relation.ReflTransGen (Move g) (s.setNet n) (s.setNet (n.setMember p m)) := by
  rw [← h, setMember_self]

/-- An ask that is answered, and whose answer need not wait. -/
theorem moves_answer {ask : Ask} {o : SendOutcome} (running : n.Running p)
    (h : ((n.members p).answer ask).2.unicast ask.sender .proposal
      (Record.encode ((n.members p).answer ask).1) = (o, m)) (hdone : o ≠ .blocked) :
    Relation.ReflTransGen (Move g) ((s.setNet n).answer p ask) (s.setNet (n.setMember p m)) := by
  have hanswered : (n.setMember p ((n.members p).answer ask).2).members p
      = ((n.members p).answer ask).2 := Function.update_self ..
  have hrunning : (n.setMember p ((n.members p).answer ask).2).Running p :=
    (running_setMember (by rfl) p).2 running
  have hmoves := moves_unicast (g := g) (s := s) hrunning (by rw [hanswered]; exact h) hdone
  rw [setMember_setMember] at hmoves
  exact hmoves

/-- A member that handles an envelope, and need not wait, takes some moves. -/
theorem moves_onFlood {o : SendOutcome} (running : n.Running p)
    (h : (n.members p).onFlood f = (o, m)) (hdone : o ≠ .blocked) :
    Relation.ReflTransGen (Move g) ((s.setNet n).handle p f) (s.setNet (n.setMember p m)) := by
  unfold Member.onFlood at h
  unfold State.handle
  cases hpath : ControlPath.ofText? f.path with
  | none =>
    rw [hpath] at h
    exact moves_of_self (Prod.mk.inj h).2
  | some path =>
    rw [hpath] at h
    cases path with
    | reliable => exact moves_of_self (Prod.mk.inj h).2
    | proposal => exact moves_of_self (Prod.mk.inj h).2
    | agreement =>
      rw [← (Prod.mk.inj h).2]
      exact .refl
    | ask =>
      dsimp only at h ⊢
      cases hask : (Record.decode? f.body : Option Ask) with
      | none =>
        unfold Member.onAsk at h
        rw [hask] at h
        exact moves_of_self (Prod.mk.inj h).2
      | some ask =>
        rw [Member.onAsk_of_decode hask] at h
        cases hsent : ((n.members p).answer ask).2.unicast ask.sender .proposal
            (Record.encode ((n.members p).answer ask).1) with
        | mk o' m' =>
          rw [hsent] at h
          cases o' with
          | blocked => exact absurd (Prod.mk.inj h).1.symm hdone
          | done =>
            rw [← (Prod.mk.inj h).2]
            exact moves_answer running hsent (by simp)
          | failed e =>
            rw [← (Prod.mk.inj h).2]
            exact moves_answer running hsent (by simp)

/-- An envelope that is passed on, and then handled. -/
theorem moves_passOn_onFlood {m' : Member} {o : SendOutcome} (running : n.Running q)
    (hpassed : (n.members q).multicast .reliable body = (.done, m'))
    (h : m'.onFlood f = (o, m)) (hdone : o ≠ .blocked) :
    Relation.ReflTransGen (Move g)
      (s.setNet (n.startSending q body (some f) (n.members q).peers.liveIds))
      (s.setNet ((n.setMember q m).route q f)) := by
  have hmember : ((n.setMember q m').route q f).members q = m' := Function.update_self ..
  have hafter : ((n.setMember q m').route q f).Running q := by
    have hstopped := (Member.alike_multicast (n.members q) .reliable body).stopped
    rw [hpassed] at hstopped
    rw [Flooding.State.Running, hmember, hstopped]
    exact running
  rw [← hmember] at h
  have hhandled := moves_onFlood (g := g) (s := s) hafter h hdone
  simp only [Flooding.State.route, Flooding.State.setMember, Function.update_idem] at hhandled
  exact (moves_passOn running hpassed).trans hhandled

/-- A frame that a member handles, and need not wait for. -/
theorem moves_onReliable {frame : Frame} {o : SendOutcome} (running : n.Running q)
    (h : (n.members q).onReliable frame = (o, m)) (hdone : o ≠ .blocked) :
    ∃ routed passed, Relation.ReflTransGen (Move g)
      ((s.setNet n).receive q frame (n.members q).peers.liveIds)
      (s.setNet { n.setMember q m with routed, passed }) := by
  rw [Member.onReliable_eq] at h
  unfold State.receive
  rw [show (s.setNet n).net = n from rfl]
  cases htake : (n.members q).takeIn frame with
  | none =>
    rw [htake] at h
    refine ⟨n.routed, n.passed, ?_⟩
    rw [← (Prod.mk.inj h).2, setMember_self]
  | some found =>
    obtain ⟨f, heard⟩ := found
    have hheard : (n.setMember q heard).members q = heard := Function.update_self ..
    have hrunning : (n.setMember q heard).Running q := by
      refine (running_setMember ?_ q).2 running
      rw [hear_of_takeIn htake]
      rfl
    rw [htake] at h
    dsimp only at h ⊢
    by_cases hown : frame.sender = heard.self
    · rw [if_pos hown, ← hheard] at h
      rw [if_pos hown]
      have hmoves := moves_onFlood (g := g) (s := s) (n := (n.setMember q heard).route q f)
        hrunning h hdone
      simp only [Flooding.State.route, Flooding.State.setMember, Function.update_idem] at hmoves
      exact ⟨_, _, hmoves⟩
    -- An envelope of another member is passed on first, and then handled.
    · rw [if_neg hown, ← hheard] at h
      rw [if_neg hown]
      cases hsent : ((n.setMember q heard).members q).multicast .reliable frame.body with
      | mk o' m' =>
        rw [hsent] at h
        cases o' with
        | blocked => exact absurd (Prod.mk.inj h).1.symm hdone
        | failed e =>
          have hrefused := Member.multicast_ne_failed hrunning .reliable frame.body e
          exact absurd (congrArg Prod.fst hsent) hrefused
        | done =>
          have hmoves := moves_passOn_onFlood (g := g) (s := s)
            (n := { n.setMember q heard with passed := n.passed ++ [(q, f.id)] })
            hrunning hsent h hdone
          have hlive : ((n.setMember q heard).members q).peers.liveIds
              = (n.members q).peers.liveIds := by
            rw [hheard, hear_of_takeIn htake]
            rfl
          dsimp only at hmoves
          rw [hlive] at hmoves
          simp only [Flooding.State.route, Flooding.State.setMember, Function.update_idem]
            at hmoves
          exact ⟨_, _, hmoves⟩

/-- A line that arrives, and that a member handles and need not wait for, is handled in some
    moves. -/
theorem moves_receiveLine {k : Hop} {before after : List Hop} (running : s.net.Running k.target)
    (underWay : s.net.underWay = before ++ k :: after)
    (oldest : ∀ j ∈ before, j.source ≠ k.source ∨ j.target ≠ k.target)
    (h : (s.net.members k.target).receiveLine (Bytes.ofText k.line) = some (.handled, m)) :
    ∃ routed passed, Relation.ReflTransGen (Move g) s (s.setNet
      { s.net.setMember k.target m with underWay := before ++ after, routed, passed }) := by
  have harrive := Move.arrive (g := g) underWay oldest
    (List.Perm.refl (s.net.members k.target).peers.liveIds)
  obtain ⟨frame, hframe, hreceive⟩ := Option.map_eq_some_iff.1 h
  unfold State.arrive at harrive
  rw [hframe] at harrive
  unfold Member.receive at hreceive
  dsimp only at harrive
  split at hreceive
  · rename_i hpath
    rw [hpath] at harrive
    obtain ⟨o, ho, honReliable⟩ : ∃ o, o ≠ .blocked ∧
        (s.net.members k.target).onReliable frame = (o, m) := by
      split at hreceive
      · cases (Prod.mk.inj hreceive).1
      · rename_i o' m' hne heq
        rw [← (Prod.mk.inj hreceive).2]
        exact ⟨o', hne, heq⟩
    obtain ⟨routed, passed, hmoves⟩ := moves_onReliable (g := g) (s := s)
      (n := { s.net with underWay := before ++ after }) running honReliable ho
    exact ⟨routed, passed, .head harrive hmoves⟩
  · rename_i hpath
    rw [hpath] at harrive
    rw [← (Prod.mk.inj hreceive).2]
    exact ⟨_, _, .single harrive⟩
  · cases (Prod.mk.inj hreceive).1

/-! ## Of its own accord -/

/-- An envelope of a member's own that is multicast and need not wait. -/
theorem moves_flood {id : MessageId} {path : ControlPath} (running : n.Running p)
    (h : (n.members p).flood id path body = (.done, m)) :
    Relation.ReflTransGen (Move g)
      (s.setNet (n.multicast p ⟨id, path.text, body⟩ (n.members p).peers.liveIds))
      (s.setNet { n.setMember p m with issued := n.issued ++ [(p, ⟨id, path.text, body⟩)] }) :=
  moves_multicast (g := g) (s := s)
    (n := { n with issued := n.issued ++ [(p, ⟨id, path.text, body⟩)] }) running h

/-- A member that sends a message, and need not wait. -/
theorem steps_submit (hs : Standing g s.net) {id floodId : MessageId} {message : Message}
    (member : p ∈ g.ids) (fresh : ∀ x ∈ s.sent, x.1 ≠ id)
    (freshFlood : ∀ x ∈ s.net.issued, x.2.id ≠ floodId)
    (h : (s.net.members p).submit id floodId message = (.done, m)) :
    Relation.ReflTransGen (Step g) s { s with
      net := { s.net.setMember p m with issued := s.net.issued ++
        [(p, ⟨floodId, ControlPath.ask.text,
          Record.encode (Ask.mk p id (Record.encode message))⟩)] }
      sent := s.sent ++ [(id, message)] } := by
  have hopened : (s.net.setMember p ((s.net.members p).openCollector id)).members p
      = (s.net.members p).openCollector id := Function.update_self ..
  have hask : Ask.mk (s.net.members p).self id (Record.encode message)
      = ⟨p, id, Record.encode message⟩ := by rw [hs.self p]
  have hflood : ((s.net.members p).openCollector id).flood floodId .ask
      (Record.encode (Ask.mk p id (Record.encode message))) = (.done, m) := by
    rw [← hask]
    unfold Member.submit at h
    dsimp only at h
    split at h
    · cases (Prod.mk.inj h).1
    · exact h
  rw [← hopened] at hflood
  have hmoves := moves_flood (g := g) (s := { s with sent := s.sent ++ [(id, message)] })
    ((running_setMember (by rfl) p).2 (hs.running p)) hflood
  have order := List.Perm.of_eq (congrArg (fun m => m.peers.liveIds) hopened)
  rw [setMember_setMember] at hmoves
  exact .head (.submit member fresh freshFlood order)
    (Relation.ReflTransGen.mono (fun _ _ move => .move move) _ _ hmoves)

/-- A collection of votes that is over, and whose agreement need not wait. -/
theorem moves_announce (running : s.net.Running p) {c c' : Collector}
    {before after : List Collector} {floodId : MessageId} {a : Agreement} (member : p ∈ g.ids)
    (collecting : (s.net.members p).collectors = before ++ c :: after)
    (advanced : c.advance (s.net.members p).peers.liveIds (s.net.members p).peers.changes
      = (true, c'))
    (agreement : c'.votes.agreement = some a) (fresh : ∀ x ∈ s.net.issued, x.2.id ≠ floodId)
    (h : Member.flood { s.net.members p with collectors := before ++ after } floodId .agreement
      (Record.encode a) = (.done, m)) :
    Member.announce { s.net.members p with collectors := before ++ after } floodId c'.votes = m ∧
      Relation.ReflTransGen (Move g) s (s.setNet { s.net.setMember p m with
        issued := s.net.issued ++ [(p, ⟨floodId, ControlPath.agreement.text, Record.encode a⟩)] })
        := by
  constructor
  · unfold Member.announce
    rw [agreement]
    exact congrArg Prod.snd h
  · have hclosed : (s.net.setMember p { s.net.members p with
        collectors := before ++ after }).members p
          = { s.net.members p with collectors := before ++ after } := Function.update_self ..
    rw [← hclosed] at h
    have hmoves := moves_flood (g := g) (s := s) ((running_setMember (by rfl) p).2 running) h
    have order := List.Perm.of_eq (congrArg (fun m => m.peers.liveIds) hclosed)
    rw [setMember_setMember] at hmoves
    exact .head (.announce member collecting advanced agreement fresh order) hmoves

end AgreedOrder.Stack
