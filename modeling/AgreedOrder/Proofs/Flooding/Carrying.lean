/-
  AgreedOrder.Proofs.Flooding.Carrying

  What lines carry. Every line on its way holds an envelope that its source
  multicast; what a member has heard it has multicast itself, as the origin or
  on the way; and an envelope comes only to members that its origin reaches
  from one known member to the next.

    * `Grouped` — the members of a group as each of them counts them.
    * `Carrying` — lines and multicasts, with a lemma for each kind of step.
-/

import AgreedOrder.Proofs.Flooding.Onward
import AgreedOrder.Proofs.Log
import Mathlib.Logic.Relation

namespace AgreedOrder.Flooding

open Json

variable {g : Layout} {s s' : State}

/-! ## The group of a member -/

/-- A member counts as live only members that it knew at first, and all of those that have not
    crashed; the queues of these are read, and lines fit in. -/
structure Grouped (g : Layout) (s : State) : Prop where
  self : ∀ p, (s.members p).self = p
  known : ∀ p q, (s.members p).peers.isLive q = true → q ∈ (g.peers p).map (·.id)
  known_reading : ∀ p q, (s.members p).peers.hasReader q = true → q ∈ (g.peers p).map (·.id)
  live : ∀ p, ∀ q ∈ (g.peers p).map (·.id), s.Running q → (s.members p).peers.isLive q = true
  reading : ∀ p, ∀ q ∈ (g.peers p).map (·.id), s.Running q →
    (s.members p).peers.hasReader q = true
  roomy : ∀ p, (s.members p).peers.Roomy

/-- Whoever is known is in the group. -/
theorem Layout.Knows.mem {p q : NodeId} (h : g.Knows p q) : q ∈ g.ids := by
  obtain ⟨n, hn, rfl⟩ := List.mem_map.1 h.2
  exact g.closed p h.1 n hn

theorem grouped_init (g : Layout) : Grouped g (State.init g) where
  self := fun _ => rfl
  known := fun p q h => (Member.isLive_init p (g.peers p) (g.capacity p) q).1 h
  known_reading := fun p q h => by
    have hreader := (Member.queues_init p (g.peers p) (g.capacity p) q).2
    exact of_decide_eq_true (hreader.symm.trans h)
  live := fun p q hq _ => (Member.isLive_init p (g.peers p) (g.capacity p) q).2 hq
  reading := fun p q hq _ =>
    (Member.queues_init p (g.peers p) (g.capacity p) q).2.trans (decide_eq_true hq)
  roomy := fun p => Member.roomy_init p (g.peers p) (g.capacity p)

theorem Grouped.step (hg : Grouped g s) (h : Step g s s') : Grouped g s' where
  self := fun p => (h.steady p).self.trans (hg.self p)
  known := fun p q hq => hg.known p q ((h.steady p).live q hq)
  known_reading := fun p q hq => hg.known_reading p q ((h.steady p).reading q hq)
  live := fun p q hq hrun => by
    have hbefore := h.running hrun
    exact (h.steady p).kept q hbefore (hg.live p q hq hbefore)
  reading := fun p q hq hrun => by
    have hbefore := h.running hrun
    exact (h.steady p).kept_reading q hbefore (hg.reading p q hq hbefore)
  roomy := fun p => (h.steady p).roomy (hg.roomy p)

/-! ## Multicasts -/

/-- The multicasts there were: of whom, and of which envelope. -/
def State.multicasts (s : State) : List (NodeId × MessageId) :=
  s.issued.map (fun x => (x.1, x.2.id)) ++ s.passed

theorem Onward.multicasts (h : Onward s s') : s'.multicasts = s.multicasts := by
  rw [State.multicasts, State.multicasts, h.issued, h.passed]

theorem Opening.mem_multicasts {p : NodeId} {f : Flood} (h : Opening g s s' p f)
    (y : NodeId × MessageId) : y ∈ s'.multicasts ↔ y ∈ s.multicasts ∨ y = (p, f.id) := by
  rw [State.multicasts, State.multicasts, h.issued, h.passed]
  rw [List.map_append, List.append_assoc, List.mem_append, List.mem_append, List.mem_append,
    List.map_singleton, List.mem_singleton, or_comm (a := y = _), or_assoc]

theorem FirstArrival.mem_multicasts {p q : NodeId} {f : Flood} (h : FirstArrival s s' p q f)
    (y : NodeId × MessageId) :
    y ∈ s'.multicasts ↔ y ∈ s.multicasts ∨ p ≠ q ∧ y = (q, f.id) := by
  rw [State.multicasts, State.multicasts, h.issued, h.passed]
  by_cases hpq : p = q
  · rw [if_pos hpq]
    exact ⟨Or.inl, fun hy => hy.resolve_right fun hne => hne.1 hpq⟩
  · rw [if_neg hpq, ← List.append_assoc, List.mem_append, List.mem_singleton]
    exact or_congr_right ⟨fun hy => ⟨hpq, hy⟩, And.right⟩

/-! ## What lines carry -/

/-- A line holds one envelope. -/
theorem lineOf_injective (p : NodeId) {f f' : Flood} (h : lineOf p f = lineOf p f') : f = f' := by
  have hframe := decode?_lineOf p f
  rw [h, decode?_lineOf] at hframe
  have hbody : Record.encode f' = Record.encode f := (Frame.mk.inj (Option.some.inj hframe)).2.2
  have hdecode := Record.decode?_encode f
  rw [← hbody, Record.decode?_encode] at hdecode
  exact (Option.some.inj hdecode).symm

/-- Where the envelopes come from that are on their way, were heard, or were passed on. -/
structure Carrying (g : Layout) (s : State) : Prop where
  carried : ∀ a b line, s.Around a b line →
    g.Knows a b ∧ ∃ x ∈ s.issued, line = lineOf a x.2 ∧ (a, x.2.id) ∈ s.multicasts
  heard : ∀ p, ∀ id ∈ (s.members p).received, (p, id) ∈ s.multicasts
  issuer : ∀ x ∈ s.issued, x.1 ∈ g.ids
  nodup : (s.issued.map (·.2.id)).Nodup
  passed : ∀ y ∈ s.passed, y.1 ∈ g.ids ∧ y.2 ∈ (s.members y.1).received ∧
    ∃ x ∈ s.issued, x.2.id = y.2
  passed_nodup : s.passed.Nodup
  reached : ∀ x ∈ s.issued, ∀ p, (p, x.2.id) ∈ s.multicasts →
    Relation.ReflTransGen g.Knows x.1 p

theorem carrying_init (g : Layout) : Carrying g (State.init g) where
  carried := fun _ _ _ h => absurd h around_init
  heard := fun _ _ h => absurd h List.not_mem_nil
  issuer := nofun
  nodup := List.nodup_nil
  passed := nofun
  passed_nodup := List.nodup_nil
  reached := nofun

/-- Whatever is multicast was issued by its origin. -/
theorem Carrying.issued_of_multicasts (hc : Carrying g s) {y : NodeId × MessageId}
    (hy : y ∈ s.multicasts) : ∃ x ∈ s.issued, x.2.id = y.2 := by
  rcases List.mem_append.1 hy with hy | hy
  · obtain ⟨x, hx, rfl⟩ := List.mem_map.1 hy
    exact ⟨x, hx, rfl⟩
  · exact (hc.passed y hy).2.2

/-- An id belongs to one envelope of one origin. -/
theorem Carrying.eq_of_id (hc : Carrying g s) {x y : NodeId × Flood} (hx : x ∈ s.issued)
    (hy : y ∈ s.issued) (h : x.2.id = y.2.id) : x = y :=
  List.inj_on_of_nodup_map hc.nodup hx hy h

theorem Carrying.onward (hc : Carrying g s) (h : Onward s s') : Carrying g s' where
  carried := fun a b line ha => by
    rw [h.issued, h.multicasts]
    exact hc.carried a b line (h.around_of a b line ha)
  heard := fun p id hid => by
    rw [h.received] at hid
    rw [h.multicasts]
    exact hc.heard p id hid
  issuer := h.issued ▸ hc.issuer
  nodup := h.issued ▸ hc.nodup
  passed := fun y hy => by
    rw [h.passed] at hy
    rw [h.issued, h.received]
    exact hc.passed y hy
  passed_nodup := h.passed ▸ hc.passed_nodup
  reached := fun x hx p hp => by
    rw [h.issued] at hx
    rw [h.multicasts] at hp
    exact hc.reached x hx p hp

theorem Carrying.opening {p : NodeId} {f : Flood} (hc : Carrying g s) (hg : Grouped g s)
    (h : Opening g s s' p f) : Carrying g s' := by
  have hold {x : NodeId × Flood} (hx : x ∈ s.issued) : x ∈ s'.issued := by
    rw [h.issued]
    exact List.mem_append_left _ hx
  have hnew : (p, f) ∈ s'.issued := by
    rw [h.issued]
    exact List.mem_append_right _ (List.mem_singleton_self _)
  have hissued {x : NodeId × Flood} (hx : x ∈ s'.issued) : x ∈ s.issued ∨ x = (p, f) := by
    rw [h.issued] at hx
    exact mem_append_singleton.1 hx
  constructor
  -- The new lines carry the new envelope, which is issued and multicast by now.
  · intro a b line ha
    rcases (h.around a b line).1 ha with ha | ⟨rfl, rfl, hlive⟩
    · obtain ⟨hknows, x, hx, hline, hmulticast⟩ := hc.carried a b line ha
      exact ⟨hknows, x, hold hx, hline, (h.mem_multicasts _).2 (Or.inl hmulticast)⟩
    · exact ⟨⟨h.member, hg.known a b hlive⟩, (a, f), hnew, rfl,
        (h.mem_multicasts _).2 (Or.inr rfl)⟩
  · intro r id hid
    rw [h.received] at hid
    exact (h.mem_multicasts _).2 (Or.inl (hc.heard r id hid))
  · intro x hx
    rcases hissued hx with hx | rfl
    · exact hc.issuer x hx
    · exact h.member
  · rw [h.issued]
    exact nodup_map_append_singleton hc.nodup h.fresh
  · intro y hy
    rw [h.passed] at hy
    obtain ⟨hmember, hheard, x, hx, hid⟩ := hc.passed y hy
    rw [h.received]
    exact ⟨hmember, hheard, x, hold hx, hid⟩
  · rw [h.passed]
    exact hc.passed_nodup
  · intro x hx r hr
    -- Neither an old multicast nor an old envelope has the new id.
    rcases hissued hx with hx | rfl
    · rcases (h.mem_multicasts _).1 hr with hr | hr
      · exact hc.reached x hx r hr
      · exact absurd (Prod.mk.inj hr).2 (h.fresh x hx)
    · rcases (h.mem_multicasts _).1 hr with hr | hr
      · obtain ⟨x, hx, hid⟩ := hc.issued_of_multicasts hr
        exact absurd hid (h.fresh x hx)
      · rw [(Prod.mk.inj hr).1]

/-- The envelope that comes to a member was issued, and its source had multicast it. -/
theorem FirstArrival.issued_of {p q : NodeId} {f : Flood} (h : FirstArrival s s' p q f)
    (hc : Carrying g s) :
    g.Knows p q ∧ ∃ o, (o, f) ∈ s.issued ∧ (p, f.id) ∈ s.multicasts := by
  obtain ⟨hknows, x, hx, hline, hmulticast⟩ := hc.carried p q _ h.line
  rw [lineOf_injective p hline]
  exact ⟨hknows, x.1, hx, hmulticast⟩

theorem Carrying.firstArrival {p q : NodeId} {f : Flood} (hc : Carrying g s) (hg : Grouped g s)
    (h : FirstArrival s s' p q f) : Carrying g s' := by
  obtain ⟨hknows, o, ho, hsource⟩ := h.issued_of hc
  have hmember : q ∈ g.ids := hknows.mem
  have hmulticast {y : NodeId × MessageId} (hy : y ∈ s.multicasts) : y ∈ s'.multicasts :=
    (h.mem_multicasts y).2 (Or.inl hy)
  constructor
  -- The new lines carry the envelope that arrived.
  · intro a b line ha
    rcases h.around_of a b line ha with ha | ⟨hne, rfl, rfl, hlive⟩
    · obtain ⟨hknows, x, hx, hline, hx'⟩ := hc.carried a b line ha
      exact ⟨hknows, x, h.issued ▸ hx, hline, hmulticast hx'⟩
    · exact ⟨⟨hmember, hg.known a b hlive⟩, (o, f), h.issued ▸ ho, rfl,
        (h.mem_multicasts _).2 (Or.inr ⟨hne, rfl⟩)⟩
  -- Only the receiver hears of something new. It passes that on, unless it is its own.
  · intro r id hid
    rw [h.received] at hid
    by_cases hr : r = q
    · rw [if_pos hr, List.mem_cons] at hid
      rcases hid with rfl | hid
      · rw [hr]
        by_cases hpq : p = q
        · exact hmulticast (hpq ▸ hsource)
        · exact (h.mem_multicasts _).2 (Or.inr ⟨hpq, rfl⟩)
      · exact hmulticast (hc.heard r id hid)
    · rw [if_neg hr] at hid
      exact hmulticast (hc.heard r id hid)
  · exact h.issued ▸ hc.issuer
  · exact h.issued ▸ hc.nodup
  -- Only the receiver passes something on, and it has heard of that.
  · intro y hy
    have hreceived {r : NodeId} {id : MessageId} (hid : id ∈ (s.members r).received) :
        id ∈ (s'.members r).received := by
      rw [h.received]
      split
      · exact List.mem_cons_of_mem _ hid
      · exact hid
    have hcases : y ∈ s.passed ∨ y = (q, f.id) := by
      rw [h.passed] at hy
      split at hy
      · exact Or.inl hy
      · exact mem_append_singleton.1 hy
    rw [h.issued]
    rcases hcases with hy | rfl
    · obtain ⟨hids, hheard, hknown⟩ := hc.passed y hy
      exact ⟨hids, hreceived hheard, hknown⟩
    · refine ⟨hmember, ?_, (o, f), ho, rfl⟩
      rw [h.received, if_pos rfl]
      exact List.mem_cons_self ..
  · rw [h.passed]
    split
    · exact hc.passed_nodup
    · -- What was passed on before was heard before.
      rw [← List.concat_eq_append]
      exact hc.passed_nodup.concat fun hy => h.new (hc.passed _ hy).2.1
  · intro x hx r hr
    rw [h.issued] at hx
    rcases (h.mem_multicasts _).1 hr with hr | ⟨-, hr⟩
    · exact hc.reached x hx r hr
    · -- The envelope came from a member that its origin reaches.
      obtain ⟨rfl, hid⟩ := Prod.mk.inj hr
      exact (hc.reached x hx p (hid ▸ hsource)).tail hknows

end AgreedOrder.Flooding
