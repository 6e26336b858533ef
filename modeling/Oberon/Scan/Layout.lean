import Oberon.Scan.Cut

/-!
# Layout

Blanks and comments between tokens.  Comments nest, so the reader keeps the number of comments that
are open.  It stops at the first character that is neither blank nor part of a comment, or at the
end of the text, and tells whether all comments were closed.
-/

namespace Oberon.Scan

/-- Skips blanks and comments, inside of `depth` open comments.  The verdict is valid if all
comments are closed. -/
def skipLayout : (depth : Nat) → List Char → Verdict
  | 0, [] => ⟨.start [], true⟩
  | 0, '(' :: '*' :: rest => (skipLayout 1 rest).after ['(', '*']
  | 0, c :: rest =>
    if isBlank c then (skipLayout 0 rest).after [c] else ⟨.start (c :: rest), true⟩
  | _ + 1, [] => ⟨.start [], false⟩
  | depth + 1, '(' :: '*' :: rest => (skipLayout (depth + 2) rest).after ['(', '*']
  | depth + 1, '*' :: ')' :: rest => (skipLayout depth rest).after ['*', ')']
  | depth + 1, c :: rest => (skipLayout (depth + 1) rest).after [c]

/-- The layout at the head of a text. -/
def layout (text : List Char) : Verdict := skipLayout 0 text

/-- Skipping loses no character. -/
theorem whole_skipLayout
    (depth : Nat)
    (text : List Char) :
    (skipLayout depth text).cut.whole = text := by
  fun_induction skipLayout depth text <;> simp_all

/-- The layout and the text after it are the text. -/
@[simp] theorem whole_layout (text : List Char) : (layout text).cut.whole = text :=
  whole_skipLayout 0 text

end Oberon.Scan
