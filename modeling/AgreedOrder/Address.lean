/-
  AgreedOrder.Address

  Network addresses: an IPv4 or IPv6 address with a port. Reading takes every
  spelling of an address; writing gives the one canonical spelling, for IPv6
  with the first of the longest runs of zero groups left out.
-/

import AgreedOrder.Text.Digit
import AgreedOrder.Text.Split

namespace AgreedOrder

/-! ## IPv4 -/

/-- An IPv4 address. -/
structure IPv4 where
  a : UInt8
  b : UInt8
  c : UInt8
  d : UInt8
  deriving DecidableEq, Repr

namespace IPv4

/-- A part of an address: one to three digits, no zero in front of another digit. -/
def part? (cs : List Char) : Option UInt8 :=
  if cs.length = 0 ∨ 3 < cs.length ∨ (1 < cs.length ∧ cs.head? = some '0') then none
  else
    match Text.readDecimal ⟨0, 255⟩ 1 0 cs with
    | .ok n => some (UInt8.ofNat n.toNat)
    | .error _ => none

/-- The address of four parts with points between them. -/
def ofChars? (cs : List Char) : Option IPv4 :=
  match Text.splitWhere (· == '.') cs with
  | [a, b, c, d] => do some ⟨← part? a, ← part? b, ← part? c, ← part? d⟩
  | _ => none

/-- The written form of an address. -/
def toText (ip : IPv4) : String :=
  ".".intercalate ([ip.a, ip.b, ip.c, ip.d].map fun x => toString x.toNat)

/-- The address of every interface. -/
def unspecified : IPv4 := ⟨0, 0, 0, 0⟩

/-- The address of the machine itself. -/
def loopback : IPv4 := ⟨127, 0, 0, 1⟩

/-- The two groups that an address takes up within an IPv6 address. -/
def groups (ip : IPv4) : List Nat :=
  [ip.a.toNat * 256 + ip.b.toNat, ip.c.toNat * 256 + ip.d.toNat]

end IPv4

/-! ## IPv6 -/

/-- An IPv6 address: eight groups of sixteen bits. -/
structure IPv6 where
  groups : List Nat
  length_groups : groups.length = 8
  deriving DecidableEq

namespace IPv6

/-- A group: one to four hexadecimal digits. -/
def group? (cs : List Char) : Option Nat :=
  if cs.length = 0 ∨ 4 < cs.length then none else Text.readHex 0 cs

/-- The groups of a text with colons between them; none of the empty text. -/
def groups? (cs : List Char) : Option (List Nat) :=
  if cs.isEmpty then some [] else (Text.splitWhere (· == ':') cs).mapM group?

/-- The same where an IPv4 address may stand for the last two groups. -/
def groupsOrIPv4? (cs : List Char) : Option (List Nat) :=
  if cs.isEmpty then some []
  else
    let pieces := Text.splitWhere (· == ':') cs
    match pieces.getLast?.bind IPv4.ofChars? with
    | some ip => do some ((← pieces.dropLast.mapM group?) ++ ip.groups)
    | none => pieces.mapM group?

/-- What stands before and after the first two colons in a row. -/
def splitAtGap : List Char → Option (List Char × List Char)
  | ':' :: ':' :: rest => some ([], rest)
  | c :: rest => (splitAtGap rest).map fun r => (c :: r.1, r.2)
  | [] => none

/-- The address of a text. Two colons in a row stand for one zero group or more. -/
def ofChars? (cs : List Char) : Option IPv6 := do
  let groups ←
    match splitAtGap cs with
    | none => groupsOrIPv4? cs
    | some (before, after) => do
      let front ← groups? before
      let back ← groupsOrIPv4? after
      -- The gap stands for one group at least.
      if front.length + back.length ≤ 7 then
        some (front ++ List.replicate (8 - (front.length + back.length)) 0 ++ back)
      else none
  if h : groups.length = 8 then some ⟨groups, h⟩ else none

/-- The number of zero groups at the front of a list. -/
def zeroRun (groups : List Nat) : Nat := (groups.takeWhile (· == 0)).length

/-- The start and length of the first of the longest runs of zeros, from a position on. -/
def longestZeroRun : Nat → List Nat → Nat × Nat
  | _, [] => (0, 0)
  | i, g :: rest =>
    let later := longestZeroRun (i + 1) rest
    let here := zeroRun (g :: rest)
    -- Of two runs of the same length the earlier one counts.
    if 0 < here ∧ later.2 ≤ here then (i, here) else later

/-- Groups without leading zeros, with colons between them. -/
def groupsText (groups : List Nat) : String :=
  ":".intercalate (groups.map fun g => String.ofList (Nat.toDigits 16 g))

/-- The written form of an address. -/
def toText (ip : IPv6) : String :=
  match ip.groups with
  -- An IPv4 address within IPv6 keeps its own spelling.
  | [0, 0, 0, 0, 0, 0xffff, g, h] =>
    "::ffff:" ++ IPv4.toText ⟨UInt8.ofNat (g / 256), UInt8.ofNat (g % 256), UInt8.ofNat (h / 256),
      UInt8.ofNat (h % 256)⟩
  | groups =>
    let (start, length) := longestZeroRun 0 groups
    -- A zero group that stands alone is written.
    if 1 < length then
      groupsText (groups.take start) ++ "::" ++ groupsText (groups.drop (start + length))
    else groupsText groups

end IPv6

/-! ## Addresses with a port -/

/-- Where a member can be reached. -/
inductive Address
  | v4 (ip : IPv4) (port : UInt16)
  | v6 (ip : IPv6) (port : UInt16) (scope : UInt32)
  deriving DecidableEq

namespace Address

/-- Digits that make a number up to `max`, leading zeros allowed. -/
def digits? (max : Int) (cs : List Char) : Option Nat :=
  if cs.isEmpty then none
  else
    match Text.readDecimal ⟨0, max⟩ 1 0 cs with
    | .ok n => some n.toNat
    | .error _ => none

/-- A port after its colon. -/
def port? : List Char → Option UInt16
  | ':' :: cs => (digits? 65535 cs).map UInt16.ofNat
  | _ => none

/-- The scope of an IPv6 address after its percent sign; none is zero. -/
def scope? : List Char → Option UInt32
  | [] => some 0
  | '%' :: cs => (digits? 4294967295 cs).map UInt32.ofNat
  | _ => none

/-- The address of a text: IPv4 and port, or IPv6 in brackets and port. -/
def ofText? (s : String) : Option Address :=
  match s.toList with
  | '[' :: cs => do
    let inner := cs.takeWhile (· != ']')
    let port ← port? ((cs.dropWhile (· != ']')).drop 1)
    let ip ← IPv6.ofChars? (inner.takeWhile (· != '%'))
    let scope ← scope? (inner.dropWhile (· != '%'))
    some (.v6 ip port scope)
  | cs => do
    let ip ← IPv4.ofChars? (cs.takeWhile (· != ':'))
    let port ← port? (cs.dropWhile (· != ':'))
    some (.v4 ip port)

/-- The address of a host that is an address itself. -/
def ofHost? (host : String) (port : UInt16) : Option Address :=
  match IPv4.ofChars? host.toList with
  | some ip => some (.v4 ip port)
  | none => (IPv6.ofChars? host.toList).map fun ip => .v6 ip port 0

/-- The written form of an address. -/
def toText : Address → String
  | .v4 ip port => ip.toText ++ ":" ++ toString port.toNat
  | .v6 ip port scope =>
    "[" ++ ip.toText ++ (if scope = 0 then "" else "%" ++ toString scope.toNat) ++ "]:"
      ++ toString port.toNat

end Address

end AgreedOrder
