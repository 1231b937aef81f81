/-
  AgreedOrder.Group.Network

  What the network does to a group: lines arrive, once or again, or are lost;
  links break; members crash. After each event everything that follows of
  itself happens before the next.
-/

import AgreedOrder.Group

namespace AgreedOrder.Group

open Member (Receipt)

variable {σ : Type}

/-! ## Arrival -/

/-- What became of a line that was handed to a member. -/
inductive Arrival
  /-- The addressee does not run. -/
  | gone
  /-- The line holds no frame. -/
  | unreadable
  | receipt (r : Receipt)
  deriving DecidableEq

/-- Hand a line to a member. -/
def hand (g : Group σ) (target : NodeId) (line : Bytes) : Arrival × Group σ :=
  match g.running? target with
  | none => (.gone, g)
  | some m =>
    match m.receiveLine line with
    | none => (.unreadable, g)
    | some (r, m) => (.receipt r, (g.setMember target m).settle)

/-- Take the next line of a link that is under way. -/
def take? (g : Group σ) (e : LinkEnds) : Option (String × Group σ) := do
  let l ← g.links.get? e
  let line ← l.lines[l.gone]?
  some (line, { g with links := g.links.insert e { l with gone := l.gone + 1 } })

/-- Let the next line of a link arrive, if there is one. -/
def arrive? (g : Group σ) (e : LinkEnds) : Option (Arrival × Group σ) :=
  (g.take? e).map fun (line, g) => g.hand e.target (Bytes.ofText line)

/-- Let lines of a link arrive until there are none, at most so many. -/
def arriveMany : Nat → LinkEnds → Group σ → List Arrival × Group σ
  | 0, _, g => ([], g)
  | n + 1, e, g =>
    match g.arrive? e with
    | none => ([], g)
    | some (a, g) =>
      let (rest, g) := arriveMany n e g
      (a :: rest, g)

/-! ## One line after the other -/

/-- How many lines are let arrive in one go at most: for each line under way and each open
    collection of votes, two on each link and one for each member. It is there to end the recursion,
    and is not shown to be enough. -/
def budget (g : Group σ) : Nat :=
  let underWay := g.links.values.foldl (fun n l => n + l.underWay.length) 0
  let collections := g.hosts.values.foldl (fun n h => n + h.member.collectors.length) 0
  (underWay + collections) * (2 * g.links.size + g.hosts.size + 1) + 1

/-- Let the lines of a link arrive, those included that this leads to, until there are none or the
    budget is used up. -/
def arriveAll (g : Group σ) (e : LinkEnds) : List Arrival × Group σ := arriveMany g.budget e g

/-- Let the next line of each of these links arrive. Gives the number of lines. -/
def pass (links : List LinkEnds) (g : Group σ) : Nat × Group σ :=
  links.foldl
    (fun (n, g) e =>
      match g.arrive? e with
      | none => (n, g)
      | some (_, g) => (n + 1, g))
    (0, g)

/-- Passes over all links until one finds nothing, at most so many. -/
def passes : Nat → Group σ → Nat × Group σ
  | 0, g => (0, g)
  | n + 1, g =>
    match pass g.links.keys g with
    | (0, g) => (0, g)
    | (k, g) =>
      let (rest, g) := passes n g
      (k + rest, g)

/-- Let the lines of all links arrive, in as many passes as the budget allows. Gives their
    number. -/
def flush (g : Group σ) : Nat × Group σ := passes g.budget g

/-! ## Faults -/

/-- Let a line of a link arrive once more, by its place among all that were written. -/
def arriveAgain? (g : Group σ) (e : LinkEnds) (i : Nat) : Option (Arrival × Group σ) := do
  let l ← g.links.get? e
  let line ← l.lines[i]?
  some (g.hand e.target (Bytes.ofText line))

/-- Lose lines of a link that are under way. Gives their number. -/
def lose (g : Group σ) (e : LinkEnds) (n : Nat) : Nat × Group σ :=
  match g.links.get? e with
  | none => (0, g)
  | some l =>
    let k := min n l.underWay.length
    (k, { g with links := g.links.insert e { l with gone := l.gone + k } })

/-- A link breaks. The line and all that is under way on it vanish, and its source gives up the
    target. -/
def cut (g : Group σ) (e : LinkEnds) : Group σ :=
  if g.links.contains e then
    let g := { g with links := g.links.erase e }
    match g.running? e.source with
    | none => g
    | some m => (g.setMember e.source (m.eject e.target).2).settle
  else g

/-- A member crashes, and every other one's link to it breaks. Its own links stay, with what is on
    them. -/
def crash (g : Group σ) (node : NodeId) : Group σ :=
  match g.hosts.get? node with
  | none => g
  | some h =>
    let g := (g.setMember node h.member.stop).settle
    -- The others find out one after the other.
    (g.hosts.keys.filter (· != node)).foldl (fun g source => g.cut ⟨source, node⟩) g

/-! ## Watching -/

/-- The lines that were written to each link since an earlier state, for the links that stand. -/
def writtenSince (before g : Group σ) : List (LinkEnds × List String) :=
  g.links.entries.map fun (e, l) =>
    (e, l.lines.drop (((before.links.get? e).map fun l => l.lines.length).getD 0))

end AgreedOrder.Group
