/-
  AgreedOrder.Proofs.Flooding.Lines

  Where a line from one member to another can be: still to be put into a queue
  by a multicast, in the queue, or on the link. Each step moves lines forward,
  and a line vanishes only when it arrives or a member at its ends has crashed.

    * `lineOf`, `arrive_of_seen`, `arrive_of_new` — what a line leads to.
    * `State.Around` — where lines are, operation by operation.
-/

import AgreedOrder.Proofs.Envelope
import AgreedOrder.Proofs.Flooding.Step
import AgreedOrder.Proofs.Log

namespace AgreedOrder.Flooding

open Json

variable {g : Layout} {s : State}

/-! ## Changing one member -/

/-- What a change of one member leaves alone there, it leaves alone everywhere. -/
theorem update_congr {β : Type} (f : Member → β) {ms : NodeId → Member} {p : NodeId} {m : Member}
    (h : f m = f (ms p)) (q : NodeId) : f (Function.update ms p m q) = f (ms q) := by
  by_cases hq : q = p
  · rw [hq, Function.update_self, h]
  · rw [Function.update_of_ne hq]

/-- A change of a member that leaves its group alone leaves alone whom a multicast goes to. -/
theorem perm_setMember {p : NodeId} {m : Member} {targets : List NodeId}
    (h : m.peers = (s.members p).peers) {q : NodeId}
    (order : targets.Perm (s.members q).peers.liveIds) :
    targets.Perm ((s.setMember p m).members q).peers.liveIds := by
  rw [show ((s.setMember p m).members q).peers = (s.members q).peers from
    update_congr (·.peers) h q]
  exact order

/-! ## What a line holds -/

/-- The line with which a member multicasts an envelope. -/
def lineOf (p : NodeId) (f : Flood) : String :=
  Record.encodeText (Frame.mk p ControlPath.reliable.text (Record.encode f))

theorem decode?_lineOf (p : NodeId) (f : Flood) :
    (Record.decode? (Bytes.ofText (lineOf p f)) : Option Frame)
      = some ⟨p, ControlPath.reliable.text, Record.encode f⟩ := Record.decode?_encode _

theorem frameLine_encode {m : Member} {p : NodeId} (hself : m.self = p) (f : Flood) :
    m.frameLine .reliable (Record.encode f) = lineOf p f := by
  unfold Member.frameLine lineOf
  rw [hself]

theorem arrive_lineOf (s : State) (p q : NodeId) (f : Flood) (targets : List NodeId) :
    s.arrive q (lineOf p f) targets
      = s.receive q ⟨p, ControlPath.reliable.text, Record.encode f⟩ targets := by
  unfold State.arrive
  rw [decode?_lineOf]
  exact if_pos (ControlPath.ofText?_text .reliable)

/-- A member notes that it has seen an envelope. -/
def hear (m : Member) (f : Flood) : Member := { m with received := f.id :: m.received }

theorem takeIn_encode (m : Member) (p : NodeId) (path : String) (f : Flood) :
    m.takeIn ⟨p, path, Record.encode f⟩
      = if f.id ∈ m.received then none else some (f, hear m f) := by
  unfold Member.takeIn
  rw [Record.decode?_encode]
  simp only [List.contains_iff_mem]
  rfl

/-- An envelope that was seen before changes nothing. -/
theorem arrive_of_seen {p q : NodeId} {f : Flood} {targets : List NodeId}
    (h : f.id ∈ (s.members q).received) : s.arrive q (lineOf p f) targets = s := by
  rw [arrive_lineOf, State.receive, takeIn_encode, if_pos h]

/-- A new envelope is routed at once if it comes from the member itself, and passed on if not. -/
theorem arrive_of_new {p q : NodeId} {f : Flood} {targets : List NodeId}
    (hself : (s.members q).self = q) (h : f.id ∉ (s.members q).received) :
    s.arrive q (lineOf p f) targets =
      if p = q then (s.setMember q (hear (s.members q) f)).route q f
      else (s.setMember q (hear (s.members q) f)).passOn q f (Record.encode f) targets := by
  rw [arrive_lineOf, State.receive, takeIn_encode, if_neg h]
  dsimp only
  rw [show (hear (s.members q) f).self = q from hself]

/-! ## Where lines are -/

/-- A line from one member to another is on its way. -/
def State.Around (s : State) (p q : NodeId) (line : String) : Prop :=
  ⟨p, q, line⟩ ∈ s.underWay ∨ line ∈ (s.members p).peers.waiting q ∨
    ∃ x ∈ s.sendings, x.node = p ∧ x.line = line ∧ q ∈ x.targets

variable {a b : NodeId} {line : String}

theorem around_init : ¬(State.init g).Around a b line := by
  rintro (h | h | ⟨x, hx, -⟩)
  · cases h
  · rw [show ((State.init g).members a).peers.waiting b = [] from
      (Member.queues_init a (g.peers a) (g.capacity a) b).1] at h
    cases h
  · cases hx

/-- A change of a member that leaves its queues alone moves no line. -/
theorem around_setMember {p : NodeId} {m : Member}
    (h : ∀ q, m.peers.waiting q = (s.members p).peers.waiting q) :
    (s.setMember p m).Around a b line ↔ s.Around a b line := by
  have hwaiting : ((s.setMember p m).members a).peers.waiting b
      = (s.members a).peers.waiting b := update_congr (fun m => m.peers.waiting b) (h b) a
  unfold State.Around
  rw [hwaiting]
  rfl

/-- A multicast that starts sends its line to every live member, in whatever order. -/
theorem around_startSending {p : NodeId} {body : Bytes} {envelope : Option Flood}
    {targets : List NodeId} (order : targets.Perm (s.members p).peers.liveIds) :
    (s.startSending p body envelope targets).Around a b line ↔ s.Around a b line ∨
      a = p ∧ line = (s.members p).frameLine .reliable body ∧
        (s.members p).peers.isLive b = true := by
  have hold : (s.setMember p { s.members p with
        peers := (s.members p).peers.countForAll ((s.members p).frameLine .reliable body) }).Around
      a b line ↔ s.Around a b line := around_setMember fun _ => rfl
  rw [← hold]
  unfold State.Around
  constructor
  · rintro (h | h | ⟨x, hx, hnode, hline, hq⟩)
    · exact Or.inl (Or.inl h)
    · exact Or.inl (Or.inr (Or.inl h))
    -- The multicasts under way are those from before and the new one.
    · rcases List.mem_append.1 hx with hx | hx
      · exact Or.inl (Or.inr (Or.inr ⟨x, hx, hnode, hline, hq⟩))
      · rw [List.mem_singleton.1 hx] at hnode hline hq
        exact Or.inr ⟨hnode.symm, hline.symm,
          ((s.members p).peers.mem_liveIds b).1 (order.mem_iff.1 hq)⟩
  · rintro ((h | h | ⟨x, hx, hrest⟩) | ⟨rfl, hline, hlive⟩)
    · exact Or.inl h
    · exact Or.inr (Or.inl h)
    · exact Or.inr (Or.inr ⟨x, List.mem_append_left _ hx, hrest⟩)
    · refine Or.inr (Or.inr
        ⟨_, List.mem_append_right _ (List.mem_singleton_self _), rfl, hline.symm, ?_⟩)
      exact order.mem_iff.2 (((s.members a).peers.mem_liveIds b).2 hlive)

section Enqueue

variable {x : Sending} {q : NodeId} {rest : List NodeId} {before after : List Sending}

/-- The queues after a line was put into one of them. -/
theorem waiting_enqueue {t : PeerTable} {l line : String} :
    (l ∈ (t.enqueue q line).2.waiting b → l ∈ t.waiting b ∨ b = q ∧ l = line) ∧
      (l ∈ t.waiting b → l ∈ (t.enqueue q line).2.waiting b) := by
  rcases t.enqueue_cases q line with ⟨box, hbox, -, heq⟩ | ⟨r, -, heq, -⟩
  · rw [heq, PeerTable.waiting_pushLine hbox]
    split
    · rename_i hb
      rw [List.mem_append, List.mem_singleton]
      exact ⟨fun h => h.imp_right fun hl => ⟨hb, hl⟩, Or.inl⟩
    · exact ⟨Or.inl, fun h => h⟩
  · rw [heq]
    exact ⟨Or.inl, fun h => h⟩

theorem around_of_enqueue (hs : s.sendings = before ++ x :: after) (hx : x.targets = q :: rest)
    (h : (s.enqueue x q (before ++ { x with targets := rest } :: after)).Around a b line) :
    s.Around a b line := by
  have hself : x ∈ s.sendings := (mem_iff_of_split hs).2 (Or.inl rfl)
  rcases h with h | h | ⟨y, hy, hnode, hline, hq⟩
  · exact Or.inl h
  -- In a queue: the line is new there, or was there before.
  · by_cases ha : a = x.node
    · rw [ha] at h ⊢
      simp only [State.enqueue, State.setMember, Function.update_self] at h
      rcases waiting_enqueue.1 h with h | ⟨rfl, rfl⟩
      · exact Or.inr (Or.inl h)
      · refine Or.inr (Or.inr ⟨x, hself, rfl, rfl, ?_⟩)
        rw [hx]
        exact List.mem_cons_self ..
    · simp only [State.enqueue, State.setMember, Function.update_of_ne ha] at h
      exact Or.inr (Or.inl h)
  -- Still to be queued, for the same multicast as before.
  · rcases (mem_iff_of_split rfl).1 hy with rfl | hy
    · refine Or.inr (Or.inr ⟨x, hself, hnode, hline, ?_⟩)
      rw [hx]
      exact List.mem_cons_of_mem _ hq
    · exact Or.inr (Or.inr ⟨y, (mem_iff_of_split hs).2 (Or.inr hy), hnode, hline, hq⟩)

/-- A line that is put into a queue vanishes only if nobody reads the queue. -/
theorem around_enqueue (hs : s.sendings = before ++ x :: after) (hx : x.targets = q :: rest)
    (hroom : ((s.members x.node).peers.enqueue q x.line).1 ≠ .full) (h : s.Around a b line) :
    (s.enqueue x q (before ++ { x with targets := rest } :: after)).Around a b line ∨
      a = x.node ∧ b = q ∧ (s.members a).peers.hasReader b = false := by
  rcases h with h | h | ⟨y, hy, hnode, hline, hq⟩
  · exact Or.inl (Or.inl h)
  · refine Or.inl (Or.inr (Or.inl ?_))
    -- A queue only gets longer.
    by_cases ha : a = x.node
    · simp only [State.enqueue, State.setMember, ha, Function.update_self] at h ⊢
      exact waiting_enqueue.2 h
    · simp only [State.enqueue, State.setMember, Function.update_of_ne ha]
      exact h
  · rcases (mem_iff_of_split hs).1 hy with rfl | hy
    · rw [hx, List.mem_cons] at hq
      -- The line for the next queue gets there, unless nobody reads that queue.
      rcases hq with rfl | hq
      · rcases (s.members y.node).peers.enqueue_cases b y.line with
          ⟨box, hbox, -, heq⟩ | ⟨r, hr, heq, hclosed⟩
        · refine Or.inl (Or.inr (Or.inl ?_))
          rw [← hnode, ← hline]
          simp only [State.enqueue, State.setMember, Function.update_self]
          rw [heq, PeerTable.waiting_pushLine hbox, if_pos rfl]
          exact List.mem_append_right _ (List.mem_singleton_self _)
        · rw [heq] at hroom
          refine Or.inr ⟨hnode.symm, rfl, ?_⟩
          rw [← hnode]
          cases r with
          | queued => exact absurd rfl hr
          | full => exact absurd rfl hroom
          | closed => exact hclosed rfl
      · refine Or.inl (Or.inr (Or.inr ⟨_, (mem_iff_of_split rfl).2 (Or.inl rfl), hnode, hline, hq⟩))
    · exact Or.inl (Or.inr (Or.inr ⟨y, (mem_iff_of_split rfl).2 (Or.inr hy), hnode, hline, hq⟩))

end Enqueue

/-- A multicast that is over has no line left. -/
theorem around_finish {x : Sending} {before after : List Sending}
    (hs : s.sendings = before ++ x :: after) :
    ((s.finish x (before ++ after)).Around a b line → s.Around a b line) ∧
      (s.Around a b line → (s.finish x (before ++ after)).Around a b line ∨
        a = x.node ∧ b ∈ x.targets) := by
  constructor
  · rintro (h | h | ⟨y, hy, hrest⟩)
    · exact Or.inl h
    · exact Or.inr (Or.inl h)
    · exact Or.inr (Or.inr ⟨y, (mem_iff_of_split hs).2 (Or.inr hy), hrest⟩)
  · rintro (h | h | ⟨y, hy, hnode, hline, hq⟩)
    · exact Or.inl (Or.inl h)
    · exact Or.inl (Or.inr (Or.inl h))
    · rcases (mem_iff_of_split hs).1 hy with rfl | hy
      · exact Or.inr ⟨hnode.symm, hq⟩
      · exact Or.inl (Or.inr (Or.inr ⟨y, hy, hnode, hline, hq⟩))

/-- Writing moves a line from a queue to a link. -/
theorem around_write {p q : NodeId} {l : String} {peers : PeerTable}
    (h : (s.members p).peers.takeLine q = (some (.line l), peers)) :
    (s.write p q l peers).Around a b line ↔ s.Around a b line := by
  obtain ⟨rest, hwaiting, -, -, hnow, -⟩ := PeerTable.takeLine_eq_line h
  unfold State.Around
  by_cases ha : a = p
  · subst ha
    simp only [State.write, State.setMember, Function.update_self, hnow, List.mem_append,
      List.mem_singleton, Hop.mk.injEq, true_and]
    -- The oldest line of the queue goes to the link.
    by_cases hb : b = q
    · subst hb
      rw [if_pos rfl, hwaiting, List.mem_cons]
      tauto
    · rw [if_neg hb]
      tauto
  · simp only [State.write, State.setMember, Function.update_of_ne ha, List.mem_append,
      List.mem_singleton, Hop.mk.injEq, ha, false_and, or_false]

/-- A line that leaves its link is the only one to vanish. -/
theorem around_remove {h : Hop} {before after : List Hop}
    (hs : s.underWay = before ++ h :: after) :
    s.Around a b line ↔ ({ s with underWay := before ++ after } : State).Around a b line ∨
      ⟨a, b, line⟩ = h := by
  unfold State.Around
  rw [hs]
  dsimp only
  rw [List.mem_append, List.mem_cons, List.mem_append]
  constructor
  · rintro ((h | h | h) | h)
    · exact Or.inl (Or.inl (Or.inl h))
    · exact Or.inr h
    · exact Or.inl (Or.inl (Or.inr h))
    · exact Or.inl (Or.inr h)
  · rintro (((h | h) | h) | h)
    · exact Or.inl (Or.inl h)
    · exact Or.inl (Or.inr (Or.inr h))
    · exact Or.inr h
    · exact Or.inl (Or.inr (Or.inl h))

end AgreedOrder.Flooding
