/-! The bytes of a text. -/
namespace PegMachine.Text

/-- The bytes of a text, one to four for a character. -/
def utf8 (s : String) : List UInt8 := s.toByteArray.data.toList

/-- The text with those bytes. -/
def ofUtf8? (bs : List UInt8) : Option String := String.fromUTF8? ⟨bs.toArray⟩

/-- Whether the bytes of `s` come before those of `t`, or are the same. -/
def bytesLe (s t : String) : Bool := decide (utf8 s ≤ utf8 t)

end PegMachine.Text
