/-
  AgreedOrder.ControlPath

  The paths that the protocol itself routes on. A frame travels on the path of
  reliable multicast or of proposals; a flooded envelope on the path of asks
  or of agreements.
-/

namespace AgreedOrder

/-- A path of the protocol itself. -/
inductive ControlPath
  | reliable
  | ask
  | proposal
  | agreement
  deriving DecidableEq, Repr

namespace ControlPath

/-- The text of a path. -/
def text : ControlPath → String
  | .reliable => "/r-multicast"
  | .ask => "/total-ording/ask-proposal-seq"
  | .proposal => "/total-ording/wait-proposal-seq"
  | .agreement => "/total-ording/announce-agreement-seq"

/-- Every path of the protocol. -/
def all : List ControlPath := [.reliable, .ask, .proposal, .agreement]

/-- The place of a path in the order of a message's phases. -/
def phase : ControlPath → Nat
  | .reliable => 0
  | .ask => 1
  | .proposal => 2
  | .agreement => 3

instance : Ord ControlPath := ⟨fun a b => compare a.phase b.phase⟩

instance : Std.TransOrd ControlPath where
  eq_swap {a b} := by cases a <;> cases b <;> decide
  isLE_trans {a b c} := by cases a <;> cases b <;> cases c <;> decide

instance : Std.LawfulEqOrd ControlPath where
  compare_self {a} := by cases a <;> decide
  eq_of_compare {a b} := by cases a <;> cases b <;> decide

/-- The path with a text. -/
def ofText? (s : String) : Option ControlPath := all.find? (·.text == s)

theorem ofText?_text (p : ControlPath) : ofText? p.text = some p := by
  cases p <;> decide

end ControlPath

end AgreedOrder
