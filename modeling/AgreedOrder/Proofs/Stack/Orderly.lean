/-
  AgreedOrder.Proofs.Stack.Orderly

  Members that take one line after the other. A line stays on its link until
  the member that it goes to has handled the one that came before: it has
  passed on what it was to pass on, and sent what it was to answer. What
  members do of their own accord goes on meanwhile.

    * `Idle` — a member has handled what came to it.
    * `Orderly` — a step at which only idle members take lines.
    * `underWay_arrive` — what comes of a line leaves the links alone.
-/

import AgreedOrder.Proofs.Stack.Relaying

namespace AgreedOrder.Stack

open Protocol (Roster)
open Flooding (Hop)

variable {g : Roster} {n : Flooding.State} {s s' : State} {p q : NodeId} {f : Flood}

/-- A member has handled what came to it: it passes nothing on, and is sending no proposal. -/
def Idle (n : Flooding.State) (q : NodeId) : Prop :=
  ∀ x ∈ n.sendings, x.node = q → x.envelope = none ∧ ¬Proposes q x.line

theorem idle_of_nil (h : n.sendings = []) (q : NodeId) : Idle n q := by
  rw [Idle, h]
  exact nofun

/-- A step at which a line leaves its link only if the member that it goes to is idle. -/
structure Orderly (g : Roster) (s s' : State) : Prop where
  step : Step g s s'
  idle : ∀ h before after, s.net.underWay = before ++ h :: after →
    s'.net.underWay = before ++ after → Idle s.net h.target

/-- A step is orderly if no line leaves its link. -/
theorem orderly_of_length_le (next : Step g s s')
    (h : s.net.underWay.length ≤ s'.net.underWay.length) : Orderly g s s' := by
  refine ⟨next, fun k before after hs hs' => ?_⟩
  rw [hs, hs', List.length_append, List.length_append, List.length_cons] at h
  omega

/-- A group that goes on in an orderly way goes on. -/
theorem Reachable.of_orderly (h : Reachable g s)
    (run : Relation.ReflTransGen (Orderly g) s s') : Reachable g s' := by
  induction run with
  | refl => exact h
  | tail _ next ih => exact ih.step next.step

/-! ## The links -/

theorem underWay_startUnicast (path : ControlPath) (body : Bytes) :
    (startUnicast n p q path body).underWay = n.underWay := by
  unfold startUnicast
  dsimp only
  split <;> rfl

theorem underWay_handle (s : State) (p : NodeId) (f : Flood) :
    (s.handle p f).net.underWay = s.net.underWay := by
  rcases handle_cases s p f with ⟨ask, -, -, heq⟩ | ⟨a, -, -, heq⟩ | ⟨-, -, heq⟩
  · rw [heq]
    exact underWay_startUnicast ..
  · rw [heq]
    rfl
  · rw [heq]

theorem underWay_finish (s : State) (x : Flooding.Sending) (l : List Flooding.Sending) :
    (s.finish x l).net.underWay = s.net.underWay := by
  cases hx : x.envelope with
  | none =>
    rw [finish_of_none hx]
    rfl
  | some f =>
    rw [finish_of_some hx]
    exact underWay_handle (s.setNet (s.net.finish x l)) x.node f

/-- What comes of a line that arrives leaves the lines on the links alone. -/
theorem underWay_arrive (s : State) (q : NodeId) (line : String) (targets : List NodeId) :
    (s.arrive q line targets).net.underWay = s.net.underWay := by
  unfold State.arrive
  split
  · rfl
  split
  · rename_i frame _ _
    unfold State.receive
    split
    · rfl
    · rename_i f m _
      split
      · exact underWay_handle (s.setNet ((s.net.setMember q m).route q f)) q f
      · rfl
  · rfl
  · rfl

end AgreedOrder.Stack
