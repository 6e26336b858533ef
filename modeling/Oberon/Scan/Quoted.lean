import Oberon.Scan.Cut

/-!
# String and character literals

A string stands between two double or two single quotes and does not contain its delimiter.  A
single character between single quotes is a character literal.  A string may also stand between
two `\"` marks, inside of which a backslash before anything but a double quote is an ordinary
character.  A string that is not closed extends to the end of the text.
-/

namespace Oberon.Scan

/-- A string that runs into the end of the text. -/
def openString (cut : Cut) : Reading := ⟨.string, cut, [.unterminatedString]⟩

/-- Reads a literal after its opening delimiter. -/
def quoted (delimiter : Char) (text : List Char) : Reading :=
  let body := Cut.takeWhile (· != delimiter) text
  match body.back with
  | [] => openString (body.after [delimiter])
  | closing :: rest =>
    let symbol := if delimiter = '\x27' ∧ body.front.length = 1 then .character else .string
    ⟨symbol, ⟨delimiter :: body.front ++ [closing], rest⟩, []⟩

/-- Reads up to and including the first `\"`.  The verdict is valid if there is one. -/
def throughEscapedQuote : List Char → Verdict
  | [] => ⟨.start [], false⟩
  | '\\' :: '"' :: rest => ⟨⟨['\\', '"'], rest⟩, true⟩
  | c :: rest => (throughEscapedQuote rest).after [c]

/-- Reads a string after its opening `\"`. -/
def escapedString (text : List Char) : Reading :=
  let body := throughEscapedQuote text
  let cut := body.cut.after ['\\', '"']
  if body.valid then ⟨.string, cut, []⟩ else openString cut

/-- A literal and the text after it are its delimiter and the text. -/
@[simp] theorem whole_quoted
    (delimiter : Char)
    (text : List Char) :
    (quoted delimiter text).cut.whole = delimiter :: text := by
  have h := Cut.whole_takeWhile (· != delimiter) text
  rw [Cut.whole] at h
  fun_cases quoted delimiter text
  · simp +zetaDelta [openString]
  · rename_i closing rest back _
    rw [back] at h
    simp +zetaDelta [Cut.whole, h]

theorem whole_throughEscapedQuote (text : List Char) :
    (throughEscapedQuote text).cut.whole = text := by
  fun_induction throughEscapedQuote text <;> simp_all
  simp [Cut.whole]

/-- A string and the text after it are its opening mark and the text. -/
@[simp] theorem whole_escapedString (text : List Char) :
    (escapedString text).cut.whole = '\\' :: '"' :: text := by
  fun_cases escapedString text <;> simp +zetaDelta [openString, whole_throughEscapedQuote]

end Oberon.Scan
