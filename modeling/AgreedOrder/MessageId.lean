/-
  AgreedOrder.MessageId

  Message ids: 128 bits, compared as numbers and written as thirty-two
  hexadecimal digits in groups of 8, 4, 4, 4 and 12. Reading also takes the
  digits without hyphens, the written form in braces, and the written form
  after `urn:uuid:`.
-/

import AgreedOrder.Text.Digit
import AgreedOrder.Text.Split

namespace AgreedOrder

/-- The id of one message or one flooded envelope. -/
structure MessageId where
  bits : BitVec 128
  deriving DecidableEq

namespace MessageId

instance : Ord MessageId := ⟨fun a b => compare a.bits b.bits⟩

theorem compare_def (a b : MessageId) : compare a b = compare a.bits b.bits := rfl

instance : Std.TransOrd MessageId where
  eq_swap {a b} := by
    rw [compare_def, compare_def b a]
    exact Std.OrientedCmp.eq_swap
  isLE_trans {a b c} := by
    rw [compare_def, compare_def b c, compare_def a c]
    exact Std.TransCmp.isLE_trans

instance : Std.LawfulEqOrd MessageId where
  compare_self {a} := by
    rw [compare_def]
    exact Std.ReflCmp.compare_self
  eq_of_compare {a b} h := by
    rw [compare_def] at h
    exact congrArg MessageId.mk (Std.LawfulEqCmp.eq_of_compare h)

instance : Inhabited MessageId := ⟨⟨0⟩⟩

/-! ## Written form -/

/-- The lengths of the groups of digits. -/
def groupLengths : List Nat := [8, 4, 4, 4, 12]

/-- The written form: the groups of lower-case digits with hyphens between them. -/
def toText (id : MessageId) : String :=
  let ds := Text.hexDigits 32 id.bits.toNat
  String.ofList (ds.take 8 ++ '-' :: (ds.drop 8).take 4 ++ '-' :: (ds.drop 12).take 4
    ++ '-' :: (ds.drop 16).take 4 ++ '-' :: ds.drop 20)

/-- The id of thirty-two hexadecimal digits. -/
def ofDigits? (cs : List Char) : Option MessageId :=
  if cs.length = 32 then (Text.readHex 0 cs).map fun n => ⟨BitVec.ofNat 128 n⟩ else none

/-- The id of five groups of digits with hyphens between them. -/
def ofGroups? (cs : List Char) : Option MessageId :=
  let groups := Text.splitWhere (· == '-') cs
  if groups.map List.length = groupLengths then ofDigits? groups.flatten else none

/-- The id of a text in any of the forms that are read. -/
def ofText? (s : String) : Option MessageId :=
  let cs := s.toList
  -- The length tells the forms apart, but for the hyphenated ones.
  if cs.length = 32 then ofDigits? cs
  else if cs.length = 38 ∧ cs.head? = some '{' ∧ cs.getLast? = some '}' then
    ofGroups? (cs.drop 1).dropLast
  else if cs.take 9 = "urn:uuid:".toList ∨ cs.take 9 = "URN:UUID:".toList then
    ofGroups? (cs.drop 9)
  else ofGroups? cs

end MessageId

end AgreedOrder
