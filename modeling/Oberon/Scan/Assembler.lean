import Oberon.Scan.Cut

/-!
# Inline assembler

After `CODE` the text up to the next `END` is one token, whatever it contains.  That `END` has to
be a word of its own: no letter, digit or underscore touches it.  Blanks at both ends do not belong
to the token.
-/

namespace Oberon.Scan

/-- True if the text starts with `END` and the word ends there. -/
def startsWithEnd : List Char → Bool
  | 'E' :: 'N' :: 'D' :: rest => !rest.head?.any continuesWord
  | _ => false

/-- Reads up to the first `END` that is a word, where `boundary` tells whether a word can start at
the head of the text. -/
def beforeEnd (boundary : Bool) : List Char → Cut
  | [] => .start []
  | c :: rest =>
    if boundary && startsWithEnd (c :: rest) then .start (c :: rest)
    else (beforeEnd (!continuesWord c) rest).after [c]

/-- Gives the blanks at the end of the front back. -/
def Cut.trimEnd (cut : Cut) : Cut :=
  let reversed := cut.front.reverse
  ⟨(reversed.dropWhile isBlank).reverse, (reversed.takeWhile isBlank).reverse ++ cut.back⟩

/-- Reads assembler text, which starts with no blank. -/
def assemblerText (text : List Char) : Cut := (beforeEnd true text).trimEnd

@[simp] theorem Cut.whole_trimEnd (cut : Cut) : cut.trimEnd.whole = cut.whole := by
  simp only [Cut.trimEnd, Cut.whole, ← List.append_assoc, ← List.reverse_append,
    List.takeWhile_append_dropWhile, List.reverse_reverse]

theorem whole_beforeEnd
    (boundary : Bool)
    (text : List Char) :
    (beforeEnd boundary text).whole = text := by
  fun_induction beforeEnd boundary text <;> simp_all

/-- Assembler text and the text after it are the text. -/
@[simp] theorem whole_assemblerText (text : List Char) : (assemblerText text).whole = text := by
  simp [assemblerText, whole_beforeEnd]

end Oberon.Scan
