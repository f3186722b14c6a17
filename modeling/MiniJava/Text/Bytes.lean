/-!
Byte strings: the form in which sources, listings, inputs and messages are read and written.
-/
namespace MiniJava

/-- A string of bytes, not always valid UTF-8. -/
abbrev Bytes := List UInt8

namespace Bytes

def ofString (s : String) : Bytes := s.toList.flatMap String.utf8EncodeChar

def toChars (bs : Bytes) : List Char := bs.map Char.ofUInt8

/-- The string whose characters have the numbers of the bytes. -/
def toText (bs : Bytes) : String := String.ofList bs.toChars

end Bytes

end MiniJava
