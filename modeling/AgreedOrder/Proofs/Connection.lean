/-
  AgreedOrder.Proofs.Connection

  The receiving end of a link hands on exactly the frames that stand on good
  lines. `published` says which these are without a reader: it takes the whole
  stream, cuts it at its line feeds and judges each line on its own. Neither a
  line that is passed over nor the place where a chunk ends has any effect on
  the lines around it.

  Main statement: `read_eq_published`.
-/

import AgreedOrder.Connection
import AgreedOrder.Proofs.LineReader

namespace AgreedOrder.Connection

open Json LineReader

/-! ## Good lines -/

/-- The text of a line, if it is within the limit and UTF-8. -/
def readable? (maxLength : Nat) (line : Bytes) : Option String :=
  if line.length ≤ maxLength then Bytes.toText? (dropReturn line) else none

/-- The sender that a line names, if it is a handshake. -/
def opener? (maxLength : Nat) (line : Bytes) : Option NodeId := do
  let s ← readable? maxLength line
  let h ← (Record.decode? (Bytes.ofText s) : Option Handshake)
  if h.sender.isEmpty then none else some h.sender

/-- The frame that a line holds, if it holds one. -/
def frameOf? (maxLength : Nat) (line : Bytes) : Option Frame := do
  let s ← readable? maxLength line
  Record.decode? (Bytes.ofText s)

/-- The frames of a stream: those of the lines after the first, if the first one names a sender. -/
def published (maxLength : Nat) (stream : Bytes) : List Frame :=
  match lines stream with
  | [] => []
  | first :: rest =>
    if (opener? maxLength first).isSome then rest.filterMap (frameOf? maxLength) else []

/-! ## The reader's items -/

section Items

variable (maxLength : Nat) (line : Bytes)

theorem judge_eq : judge maxLength line = .tooLong ∧ readable? maxLength line = none ∨
    judge maxLength line = .notText ∧ readable? maxLength line = none ∨
    ∃ s, judge maxLength line = .line s ∧ readable? maxLength line = some s := by
  unfold judge readable? item
  split
  · cases Bytes.toText? (dropReturn line) with
    | none => exact .inr (.inl ⟨rfl, rfl⟩)
    | some s => exact .inr (.inr ⟨s, rfl, rfl⟩)
  · exact .inl ⟨rfl, rfl⟩

theorem sender?_judge : sender? (judge maxLength line) = opener? maxLength line := by
  unfold opener?
  obtain ⟨hj, hr⟩ | ⟨hj, hr⟩ | ⟨s, hj, hr⟩ := judge_eq maxLength line
  · rw [hj, hr]; rfl
  · rw [hj, hr]; rfl
  · rw [hj, hr, sender?, Option.bind_eq_bind, Option.bind_some]
    cases (Record.decode? (Bytes.ofText s) : Option Handshake) <;> rfl

theorem frame?_judge : frame? (judge maxLength line) = frameOf? maxLength line := by
  unfold frameOf?
  obtain ⟨hj, hr⟩ | ⟨hj, hr⟩ | ⟨s, hj, hr⟩ := judge_eq maxLength line
  all_goals rw [hj, hr]; rfl

end Items

theorem decode?_nil {α : Type} [Record α] : (Record.decode? [] : Option α) = none := by
  have htokens : tokens? [] = some [] := by rw [tokens?]
  rw [Record.decode?, Value.parse?, htokens]
  rfl

/-- An empty line at the end makes no difference: it holds neither a handshake nor a frame. -/
theorem frames_append_empty (l : List LineItem) : frames (l ++ [.line ""]) = frames l := by
  have hempty : Bytes.ofText "" = [] := rfl
  have hsender : sender? (.line "") = none := by rw [sender?, hempty, decode?_nil]
  have hframe : frame? (.line "") = none := by rw [frame?, hempty, decode?_nil]
  cases l with
  | nil => exact if_neg (by simp [hsender])
  | cons first rest => simp [frames, hframe]

theorem frames_map_judge (maxLength : Nat) (stream : Bytes) :
    frames ((lines stream).map (judge maxLength)) = published maxLength stream := by
  rw [published]
  cases lines stream with
  | nil => rfl
  | cons first rest =>
    rw [List.map_cons, frames, sender?_judge, List.filterMap_map]
    congr 2
    funext line
    exact frame?_judge maxLength line

theorem frames_items (maxLength : Nat) (stream : Bytes) :
    frames (items maxLength stream) = published maxLength stream := by
  rw [← frames_map_judge]
  rcases map_judge_lines maxLength stream with h | h
  · rw [h]
  · rw [h, frames_append_empty]

/-- For every limit, every stream and every way of cutting it into chunks, exactly the frames of
    its good lines are handed on, in order. -/
theorem read_eq_published (maxLength : Nat) (chunks : List Bytes) :
    read maxLength chunks = published maxLength chunks.flatten := by
  rw [read, readAll_eq_items, frames_items]

end AgreedOrder.Connection
