import Oberon.Scan.Cut

/-!
# Numeric literals

A number starts with a decimal digit.  `0x` and `0b` introduce hexadecimal and binary integers.
Otherwise the digits are read as hexadecimal ones, and what follows them decides: `H` makes an
integer, `X` a character code, a point that is not the start of `..` a real number with an optional
scale factor; without any of these it is a decimal integer.  Digits may be grouped by single
backticks.

A number that breaks these rules is still one token, and is marked as malformed.
-/

namespace Oberon.Scan

/-- The separator of digit groups. -/
def groupMark : Char := '\x60'

/-- Reads the digits and group separators after a first digit.  The verdict is valid if a digit
follows every separator. -/
def moreDigits (isDigit : Char → Bool) : List Char → Verdict
  | [] => ⟨.start [], true⟩
  | [c] =>
    if c = groupMark then ⟨⟨[c], []⟩, false⟩
    else if isDigit c then ⟨⟨[c], []⟩, true⟩
    else ⟨.start [c], true⟩
  | c :: next :: rest =>
    if c = groupMark then
      if isDigit next then (moreDigits isDigit rest).after [c, next]
      else ⟨⟨[c], next :: rest⟩, false⟩
    else if isDigit c then (moreDigits isDigit (next :: rest)).after [c]
    else ⟨.start (c :: next :: rest), true⟩

/-- Reads digits in groups.  The verdict is valid if a digit leads and a digit follows every
separator. -/
def digitGroups (isDigit : Char → Bool) : List Char → Verdict
  | [] => ⟨.start [], false⟩
  | c :: rest =>
    if isDigit c then (moreDigits isDigit rest).after [c] else ⟨.start (c :: rest), false⟩

/-- A literal of a class, malformed unless `valid`. -/
def numeral (symbol : Symbol) (cut : Cut) (valid : Bool) : Reading :=
  ⟨symbol, cut, if valid then [] else [.malformedNumber]⟩

/-- Reads an optional sign. -/
def sign : List Char → Cut
  | '+' :: rest => ⟨['+'], rest⟩
  | '-' :: rest => ⟨['-'], rest⟩
  | text => .start text

/-- Reads a scale factor: a letter, an optional sign and digits. -/
def scaleFactor : List Char → Verdict
  | [] => ⟨.start [], true⟩
  | letter :: rest =>
    if letter = 'E' ∨ letter = 'D' then
      let digits := Cut.takeWhile isDecimal (sign rest).back
      ⟨digits.after (letter :: (sign rest).front), !digits.front.isEmpty⟩
    else ⟨.start (letter :: rest), true⟩

/-- Reads what follows the point of a real number: digits and a scale factor. -/
def fraction (text : List Char) : Verdict :=
  let digits := Cut.takeWhile isDecimal text
  (scaleFactor digits.back).after digits.front

/-- Reads a hexadecimal integer after its `0x`. -/
def hexadecimalNumber (text : List Char) : Reading :=
  let digits := digitGroups isHexadecimal text
  numeral .integer (digits.cut.after ['0', 'x']) digits.valid

/-- Reads a binary integer after its `0b`.  Decimal digits that come next belong to it and make it
malformed. -/
def binaryNumber (text : List Char) : Reading :=
  let digits := digitGroups isBinary text
  if digits.valid && !digits.cut.back.head?.any isDecimal then
    numeral .integer (digits.cut.after ['0', 'b']) true
  else
    let stray := Cut.takeWhile isDecimal digits.cut.back
    numeral .integer (stray.after ('0' :: 'b' :: digits.cut.front)) false

/-- Reads a number without an introducing letter. -/
def plainNumber (text : List Char) : Reading :=
  let digits := digitGroups isHexadecimal text
  let decimal := !digits.cut.front.any isHexLetter
  match digits.cut.back with
  | 'H' :: rest => numeral .integer ⟨digits.cut.front ++ ['H'], rest⟩ digits.valid
  | 'X' :: rest => numeral .character ⟨digits.cut.front ++ ['X'], rest⟩ digits.valid
  | '.' :: rest =>
    if rest.head? = some '.' then
      numeral .integer digits.cut (digits.valid && decimal)
    else
      let decimals := fraction rest
      numeral .real (decimals.cut.after (digits.cut.front ++ ['.']))
        (digits.valid && decimals.valid && decimal)
  | _ => numeral .integer digits.cut (digits.valid && decimal)

/-- Reads a number. -/
def number : List Char → Reading
  | '0' :: 'x' :: rest => hexadecimalNumber rest
  | '0' :: 'b' :: rest => binaryNumber rest
  | text => plainNumber text

theorem whole_moreDigits
    (isDigit : Char → Bool)
    (text : List Char) :
    (moreDigits isDigit text).cut.whole = text := by
  fun_induction moreDigits isDigit text <;> simp_all <;> simp [Cut.whole]

@[simp] theorem whole_digitGroups
    (isDigit : Char → Bool)
    (text : List Char) :
    (digitGroups isDigit text).cut.whole = text := by
  fun_cases digitGroups isDigit text <;> simp [whole_moreDigits]

@[simp] theorem whole_sign (text : List Char) : (sign text).whole = text := by
  fun_cases sign text <;> simp [Cut.whole, Cut.start]

@[simp] theorem whole_scaleFactor (text : List Char) : (scaleFactor text).cut.whole = text := by
  fun_cases scaleFactor text
  · simp
  · rename_i letter rest _ _
    have h := whole_sign rest
    rw [Cut.whole] at h
    simp +zetaDelta [h]
  · simp

@[simp] theorem whole_fraction (text : List Char) : (fraction text).cut.whole = text := by
  have h := Cut.whole_takeWhile isDecimal text
  rw [Cut.whole] at h
  simp [fraction, h]

theorem whole_plainNumber (text : List Char) : (plainNumber text).cut.whole = text := by
  have h := whole_digitGroups isHexadecimal text
  rw [Cut.whole] at h
  fun_cases plainNumber text
  · rename_i rest back
    rw [back] at h
    simpa [numeral, Cut.whole] using h
  · rename_i rest back
    rw [back] at h
    simpa [numeral, Cut.whole] using h
  · exact h
  · rename_i rest back _ _
    rw [back] at h
    simpa +zetaDelta [numeral] using h
  · exact h

/-- A number and the text after it are the text. -/
@[simp] theorem whole_number (text : List Char) : (number text).cut.whole = text := by
  fun_cases number text
  · simp [hexadecimalNumber, numeral]
  · rename_i rest
    have h := whole_digitGroups isBinary rest
    fun_cases binaryNumber rest
    · simp +zetaDelta [numeral]
    · rw [Cut.whole] at h
      simp +zetaDelta [numeral, h]
  · exact whole_plainNumber _

end Oberon.Scan
