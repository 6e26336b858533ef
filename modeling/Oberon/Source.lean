import Oberon.Text.Utf8

/-!
# Sources

A source is a sequence of bytes under a file name.  The bytes need not be well-formed UTF-8; the
text that is scanned is whatever they decode to.
-/

namespace Oberon

/-- Source code and the name of the file it comes from. -/
structure Source where
  name : String
  bytes : List UInt8
  deriving DecidableEq, Repr

namespace Source

/-- The source that holds a text. -/
def ofText (name text : String) : Source := ⟨name, Text.Utf8.encode text.toList⟩

/-- The source read from a file.  An empty file cannot be mapped and stands for the empty text. -/
def ofFile (name : String) (content : List UInt8) : Source :=
  if content.isEmpty then ofText name "" else ⟨name, content⟩

@[simp] theorem ofFile_eq
    (name : String)
    (content : List UInt8) :
    ofFile name content = ⟨name, content⟩ := by
  cases content <;> rfl

/-- The decoded text. -/
def text (source : Source) : List Char := Text.Utf8.decode source.bytes

end Source

end Oberon
