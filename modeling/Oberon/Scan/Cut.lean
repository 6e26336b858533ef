import Oberon.Issue

/-!
# Cutting a text in two

Every reader of the scanner takes some characters off the front of a text and leaves the rest.  Its
result is a cut: the front and the back, which together are the text that was read.  The character
classes that readers test are those of ASCII alone.
-/

namespace Oberon.Scan

/-- A text cut in two. -/
structure Cut where
  front : List Char
  back : List Char
  deriving DecidableEq, Repr

namespace Cut

/-- The text that was cut. -/
def whole (cut : Cut) : List Char := cut.front ++ cut.back

/-- Nothing read. -/
def start (text : List Char) : Cut := ⟨[], text⟩

/-- Puts characters before those that were read. -/
def after (before : List Char) (cut : Cut) : Cut := ⟨before ++ cut.front, cut.back⟩

/-- Reads as long as the characters satisfy a test. -/
def takeWhile (test : Char → Bool) (text : List Char) : Cut :=
  ⟨text.takeWhile test, text.dropWhile test⟩

@[simp] theorem whole_start (text : List Char) : (start text).whole = text := rfl

@[simp] theorem whole_after
    (before : List Char)
    (cut : Cut) :
    (cut.after before).whole = before ++ cut.whole := by
  simp [after, whole]

@[simp] theorem whole_takeWhile
    (test : Char → Bool)
    (text : List Char) :
    (takeWhile test text).whole = text := by
  simp [takeWhile, whole]

/-- All characters that are read satisfy the test. -/
theorem forall_mem_front_takeWhile
    (test : Char → Bool)
    (text : List Char) :
    ∀ c ∈ (takeWhile test text).front, test c = true :=
  List.all_eq_true.mp List.all_takeWhile

/-- The next character does not satisfy the test. -/
theorem head?_back_takeWhile
    (test : Char → Bool)
    (text : List Char) :
    (takeWhile test text).back.head?.any test = false := by
  have stopped := List.head?_dropWhile_not test text
  rw [takeWhile]
  cases next : (text.dropWhile test).head? with
  | none => rfl
  | some c => simpa [next] using stopped

/-- There is one place at which reading stops. -/
theorem takeWhile_append
    {test : Char → Bool}
    {front back : List Char}
    (all : ∀ c ∈ front, test c = true)
    (stops : back.head?.any test = false) :
    takeWhile test (front ++ back) = ⟨front, back⟩ := by
  rw [takeWhile, List.takeWhile_append_of_pos all, List.dropWhile_append_of_pos all]
  cases back with
  | nil => simp
  | cons c rest =>
    have other : ¬ test c = true := by simpa using stops
    simp [other]

theorem length_whole (cut : Cut) :
    cut.whole.length = cut.front.length + cut.back.length := by
  simp [whole]

end Cut

/-- A cut and whether what was read is complete and in order. -/
structure Verdict where
  cut : Cut
  valid : Bool
  deriving DecidableEq, Repr

namespace Verdict

/-- Puts characters before those that were read. -/
def after (before : List Char) (verdict : Verdict) : Verdict :=
  ⟨verdict.cut.after before, verdict.valid⟩

@[simp] theorem cut_after
    (before : List Char)
    (verdict : Verdict) :
    (verdict.after before).cut = verdict.cut.after before := rfl

end Verdict

/-- What a reader makes of the front of a text: the class of the token, its characters and those
after it, and what is wrong with it. -/
structure Reading where
  symbol : Symbol
  cut : Cut
  flaws : List Flaw
  deriving DecidableEq, Repr

/-- Space, tab, carriage return and line feed. -/
def isBlank (c : Char) : Bool := c == ' ' || c == '\t' || c == '\r' || c == '\n'

/-- A decimal digit. -/
def isDecimal (c : Char) : Bool := c.isDigit

/-- A binary digit. -/
def isBinary (c : Char) : Bool := c == '0' || c == '1'

/-- A letter that serves as a hexadecimal digit. -/
def isHexLetter (c : Char) : Bool := ('a' ≤ c && c ≤ 'f') || ('A' ≤ c && c ≤ 'F')

/-- A hexadecimal digit. -/
def isHexadecimal (c : Char) : Bool := isDecimal c || isHexLetter c

/-- A character that can begin a word. -/
def startsWord (c : Char) : Bool := c == '_' || c.isAlpha

/-- A character that can continue a word. -/
def continuesWord (c : Char) : Bool := c == '_' || c.isAlphanum

end Oberon.Scan
