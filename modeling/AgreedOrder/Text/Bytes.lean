/-
  AgreedOrder.Text.Bytes

  Byte strings, and the texts they stand for. A text is written as its UTF-8
  bytes; a byte string is read as a text only where it is well-formed UTF-8.
-/

namespace AgreedOrder

/-- A string of bytes. -/
abbrev Bytes := List UInt8

namespace Bytes

/-- The UTF-8 bytes of a text. -/
def ofText (s : String) : Bytes := s.toByteArray.data.toList

/-- The text whose UTF-8 bytes these are, if they are well-formed. -/
def toText? (b : Bytes) : Option String := String.fromUTF8? ⟨b.toArray⟩

@[simp] theorem toText?_ofText (s : String) : toText? (ofText s) = some s := by
  have h : (⟨(ofText s).toArray⟩ : ByteArray) = s.toByteArray := by
    simp [ofText]
  simp only [toText?, h, String.fromUTF8?]
  rw [dif_pos (by simpa using s.isValidUTF8)]
  rfl

end Bytes

end AgreedOrder
