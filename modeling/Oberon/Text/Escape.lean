import Oberon.Text.GraphemeExtend
import Oberon.Text.Unprintable

/-!
# Escaped characters

How messages show characters that would be unreadable or would break the line.  A few have short
escapes; characters without a printed form, and those that would join the character before them,
are written as their code point in hexadecimal.  All others stand for themselves.
-/

namespace Oberon.Text

/-- The code point in hexadecimal, between braces. -/
def codeEscape (c : Char) : String :=
  "\\u\x7b" ++ String.ofList (Nat.toDigits 16 c.toNat) ++ "\x7d"

/-- The rule for all characters but quotation marks. -/
def escapeUnquoted (c : Char) : String :=
  if c = '\x00' then "\\0"
  else if c = '\t' then "\\t"
  else if c = '\r' then "\\r"
  else if c = '\n' then "\\n"
  else if c = '\\' then "\\\\"
  else if extendsGrapheme c || isUnprintable c then codeEscape c
  else String.singleton c

/-- A character as it is shown on its own. -/
def escapeChar (c : Char) : String :=
  if c = '"' then "\\\""
  else if c = '\x27' then "\\'"
  else escapeUnquoted c

/-- A text between double quotes, in which single quotes stand for themselves. -/
def quote (text : String) : String :=
  let inner := text.toList.map fun c => if c = '"' then "\\\"" else escapeUnquoted c
  "\"" ++ String.join inner ++ "\""

end Oberon.Text
