/-
  AgreedOrder.LineReader

  Lines out of bytes that come in chunks. A line ends at a line feed; a
  carriage return before it is dropped. A line longer than the limit is given
  up as soon as the limit is passed and the rest of it discarded; the lines
  around it are not affected.
-/

import AgreedOrder.Text.Bytes

namespace AgreedOrder

/-- What is read: a line, or word of one that is left out. -/
inductive LineItem
  | line (s : String)
  | tooLong
  /-- The bytes of the line are no text. -/
  | notText
  deriving DecidableEq

/-- Bytes that are read and not used up yet. -/
structure LineReader where
  maxLength : Nat
  buffer : Bytes
  /-- The bytes at the front of the buffer that hold no line feed. -/
  searched : Nat
  /-- Whether the rest of a line that was too long is being discarded. -/
  discarding : Bool

namespace LineReader

/-- Nothing read yet. -/
def init (maxLength : Nat) : LineReader := ⟨maxLength, [], 0, false⟩

/-- A line without the carriage return at its end. -/
def dropReturn (b : Bytes) : Bytes := if b.getLast? = some 0x0D then b.dropLast else b

/-- The bytes of a line as they are handed on. -/
def item (b : Bytes) : LineItem :=
  match Bytes.toText? (dropReturn b) with
  | some s => .line s
  | none => .notText

/-- How far into the buffer a line feed is looked for. -/
def window (r : LineReader) : Nat := min (r.maxLength + 1) r.buffer.length

/-- The place of the first line feed in the window. -/
def lineFeed? (r : LineReader) : Option Nat :=
  (((r.buffer.take r.window).drop r.searched).findIdx? (· == 0x0A)).map (r.searched + ·)

theorem lt_length_of_lineFeed? {r : LineReader} {k : Nat} (h : r.lineFeed? = some k) :
    k < r.buffer.length := by
  simp only [lineFeed?, Option.map_eq_some_iff] at h
  obtain ⟨i, hi, rfl⟩ := h
  have hlt := List.findIdx?_eq_some_iff_findIdx_eq.1 hi
  simp only [List.length_drop, List.length_take] at hlt
  omega

/-- Read as many lines as the buffer holds. -/
def drain (r : LineReader) : List LineItem × LineReader :=
  match h : r.lineFeed? with
  | some k =>
    have := lt_length_of_lineFeed? h
    if r.discarding then
      -- The line that was too long ends here; nothing is handed on for it.
      drain { r with buffer := r.buffer.drop (k + 1), searched := 0, discarding := false }
    else
      let (items, rest) := drain { r with buffer := r.buffer.drop (k + 1), searched := 0 }
      (item (r.buffer.take k) :: items, rest)
  | none =>
    if r.discarding then
      if r.buffer.drop r.window = [] then
        ([], { r with buffer := [], searched := 0 })
      else drain { r with buffer := r.buffer.drop r.window, searched := 0 }
    else if r.maxLength < r.buffer.length then
      -- The line cannot end within the limit any more.
      let (items, rest) := drain { r with discarding := true }
      (.tooLong :: items, rest)
    else
      -- The line may still end within the limit: wait for more.
      ([], { r with searched := r.window })
termination_by (r.buffer.length, if r.discarding then 0 else 1)
decreasing_by
  -- A line end leaves the buffer.
  · apply Prod.Lex.left
    simp only [List.length_drop]
    omega
  · apply Prod.Lex.left
    simp only [List.length_drop]
    omega
  -- What is discarded leaves the buffer.
  · rename_i hne
    apply Prod.Lex.left
    simp only [List.length_drop]
    have hpos : r.window < r.buffer.length := by
      apply Nat.lt_of_not_le
      intro hle
      exact hne (List.drop_eq_nil_of_le hle)
    simp only [window] at hpos ⊢
    omega
  -- The buffer stays, and the reader begins to discard.
  · rename_i hd _
    apply Prod.Lex.right
    simp [hd]

/-- Read a chunk. -/
def feed (r : LineReader) (chunk : Bytes) : List LineItem × LineReader :=
  drain { r with buffer := r.buffer ++ chunk }

/-- What is left at the end: a line, unless it is nothing or a carriage return alone. -/
def finish (r : LineReader) : List LineItem :=
  if r.buffer = [] ∨ r.buffer = [0x0D] then [] else [item r.buffer]

/-- Read chunks to their end. -/
def readAll (maxLength : Nat) (chunks : List Bytes) : List LineItem :=
  let (items, rest) := chunks.foldl
    (fun (items, r) chunk =>
      let (more, r) := feed r chunk
      (items ++ more, r))
    ([], init maxLength)
  items ++ rest.finish

end LineReader

end AgreedOrder
