/-
  AgreedOrder.Json.Token

  The tokens of a JSON document. Blanks between tokens are dropped. A number
  keeps its value only where it is written as an integer, without fraction or
  exponent; minus zero is not an integer. A string keeps its text only where
  it has one.
-/

import AgreedOrder.Json.Quoted

namespace AgreedOrder.Json

/-- A token. -/
inductive Token
  | openArray
  | closeArray
  | openObject
  | closeObject
  | comma
  | colon
  | null
  | bool (b : Bool)
  | number (value : Option Int)
  | string (text : Option String)
  deriving DecidableEq, Repr

/-! ## Numbers -/

/-- Whether a byte is an ASCII digit. -/
def isDigit (b : UInt8) : Bool := 0x30 ≤ b && b ≤ 0x39

/-- The number of a run of ASCII digits. -/
def digitsValue (ds : Bytes) : Nat := ds.foldl (fun n d => n * 10 + (d.toNat - 0x30)) 0

/-- One digit or more, and what follows. -/
def digits? (bs : Bytes) : Option (Bytes × Bytes) :=
  match bs.takeWhile isDigit with
  | [] => none
  | ds => some (ds, bs.dropWhile isDigit)

/-- The whole part of a number: a zero alone, or digits that start with another. -/
def whole? : Bytes → Option (Bytes × Bytes)
  | 0x30 :: rest => some ([0x30], rest)
  | bs => digits? bs

/-- The rest after a fraction, where there is one. -/
def fraction? : Bytes → Option (Bool × Bytes)
  | 0x2E :: rest => (digits? rest).map fun r => (true, r.2)
  | bs => some (false, bs)

/-- The rest after an exponent, where there is one. -/
def exponent? : Bytes → Option (Bool × Bytes)
  | [] => some (false, [])
  | e :: rest =>
    if e = 0x65 ∨ e = 0x45 then
      let unsigned :=
        match rest with
        | [] => []
        | s :: tail => if s = 0x2B ∨ s = 0x2D then tail else s :: tail
      (digits? unsigned).map fun r => (true, r.2)
    else some (false, e :: rest)

/-- A number without its sign, and what follows. -/
def unsigned? (negative : Bool) (bs : Bytes) : Option (Token × Bytes) := do
  let (ds, rest) ← whole? bs
  let (hasFraction, rest) ← fraction? rest
  let (hasExponent, rest) ← exponent? rest
  let n := digitsValue ds
  -- Minus zero is not an integer.
  let value : Option Int :=
    if hasFraction || hasExponent || (negative && n == 0) then none
    else if negative then some (-n) else some n
  some (.number value, rest)

theorem digits?_length_lt {bs ds rest : Bytes} (h : digits? bs = some (ds, rest)) :
    rest.length < bs.length := by
  unfold digits? at h
  split at h
  · simp at h
  · rename_i hne
    simp only [Option.some.injEq, Prod.mk.injEq] at h
    have hlen := congrArg List.length (List.takeWhile_append_dropWhile (p := isDigit) (l := bs))
    rw [List.length_append, h.2] at hlen
    have hpos := List.length_pos_iff.2 hne
    omega

theorem whole?_length_lt {bs ds rest : Bytes} (h : whole? bs = some (ds, rest)) :
    rest.length < bs.length := by
  unfold whole? at h
  split at h
  · simp only [Option.some.injEq, Prod.mk.injEq] at h
    simp [← h.2]
  · exact digits?_length_lt h

theorem fraction?_length_le {bs rest : Bytes} {b : Bool} (h : fraction? bs = some (b, rest)) :
    rest.length ≤ bs.length := by
  unfold fraction? at h
  split at h
  · simp only [Option.map_eq_some_iff, Prod.mk.injEq, Prod.exists] at h
    obtain ⟨ds, r, hd, -, rfl⟩ := h
    have := digits?_length_lt hd
    simp only [List.length_cons]
    omega
  · simp only [Option.some.injEq, Prod.mk.injEq] at h
    simp [← h.2]

theorem exponent?_length_le {bs rest : Bytes} {b : Bool} (h : exponent? bs = some (b, rest)) :
    rest.length ≤ bs.length := by
  unfold exponent? at h
  split at h
  · simp only [Option.some.injEq, Prod.mk.injEq] at h
    simp [← h.2]
  · split at h
    · simp only [Option.map_eq_some_iff, Prod.mk.injEq, Prod.exists] at h
      obtain ⟨ds, r, hd, -, rfl⟩ := h
      have := digits?_length_lt hd
      simp only [List.length_cons]
      split at this
      · simp at this
      · split at this <;> simp only [List.length_cons] at * <;> omega
    · simp only [Option.some.injEq, Prod.mk.injEq] at h
      simp [← h.2]

theorem unsigned?_length_lt {negative : Bool} {bs rest : Bytes} {t : Token}
    (h : unsigned? negative bs = some (t, rest)) : rest.length < bs.length := by
  simp only [unsigned?, Option.bind_eq_bind, Option.bind_eq_some_iff, Option.some.injEq,
    Prod.mk.injEq, Prod.exists] at h
  obtain ⟨ds, r₁, h₁, f, r₂, h₂, e, r₃, h₃, -, rfl⟩ := h
  have := whole?_length_lt h₁
  have := fraction?_length_le h₂
  have := exponent?_length_le h₃
  omega

/-! ## Tokens -/

/-- Whether a byte is a blank between tokens. -/
def isSpace (b : UInt8) : Bool := b = 0x20 || b = 0x09 || b = 0x0A || b = 0x0D

/-- The token that is a single mark. -/
def mark? (b : UInt8) : Option Token :=
  if b = 0x5B then some .openArray
  else if b = 0x5D then some .closeArray
  else if b = 0x7B then some .openObject
  else if b = 0x7D then some .closeObject
  else if b = 0x2C then some .comma
  else if b = 0x3A then some .colon
  else none

/-- The token that is one of the words `null`, `true` and `false`. -/
def word? (b : UInt8) (rest : Bytes) : Option (Token × Bytes) :=
  if b = 0x6E ∧ rest.take 3 = [0x75, 0x6C, 0x6C] then some (.null, rest.drop 3)
  else if b = 0x74 ∧ rest.take 3 = [0x72, 0x75, 0x65] then some (.bool true, rest.drop 3)
  else if b = 0x66 ∧ rest.take 4 = [0x61, 0x6C, 0x73, 0x65] then some (.bool false, rest.drop 4)
  else none

/-- The token that starts with `b`, and what follows it. -/
def token? (b : UInt8) (rest : Bytes) : Option (Token × Bytes) :=
  match mark? b with
  | some t => some (t, rest)
  | none =>
    if b = 0x22 then (scan rest).map fun r => (.string (decodePieces r.1), r.2)
    else if b = 0x2D then unsigned? true rest
    else if isDigit b then unsigned? false (b :: rest)
    else word? b rest

theorem word?_length_le {b : UInt8} {rest rest' : Bytes} {t : Token}
    (h : word? b rest = some (t, rest')) : rest'.length ≤ rest.length := by
  unfold word? at h
  split at h
  · simp only [Option.some.injEq, Prod.mk.injEq] at h
    simp [← h.2]
  · split at h
    · simp only [Option.some.injEq, Prod.mk.injEq] at h
      simp [← h.2]
    · split at h
      · simp only [Option.some.injEq, Prod.mk.injEq] at h
        simp [← h.2]
      · simp at h

theorem token?_length_le {b : UInt8} {rest rest' : Bytes} {t : Token}
    (h : token? b rest = some (t, rest')) : rest'.length ≤ rest.length := by
  unfold token? at h
  split at h
  · simp only [Option.some.injEq, Prod.mk.injEq] at h
    simp [← h.2]
  · split at h
    · simp only [Option.map_eq_some_iff, Prod.mk.injEq, Prod.exists] at h
      obtain ⟨ps, r, hs, -, rfl⟩ := h
      exact scan_length_le _ hs
    · split at h
      · exact Nat.le_of_lt (unsigned?_length_lt h)
      · split at h
        · exact Nat.le_of_lt_succ (unsigned?_length_lt h)
        · exact word?_length_le h

/-- The tokens of a document, if it is made of tokens. -/
def tokens? : Bytes → Option (List Token)
  | [] => some []
  | b :: rest =>
    if isSpace b then tokens? rest
    else
      match h : token? b rest with
      | none => none
      | some (t, rest') =>
        have := token?_length_le h
        (tokens? rest').map (t :: ·)
termination_by bs => bs.length
decreasing_by all_goals simp only [List.length_cons]; omega

end AgreedOrder.Json
