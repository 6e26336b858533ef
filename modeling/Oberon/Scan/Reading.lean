import Oberon.Scan.Assembler
import Oberon.Scan.Number
import Oberon.Scan.Quoted

/-!
# Reading a token

The first character decides what kind of token a text starts with; the reader of that kind then
takes as many characters as it can.  `read?` is undefined exactly on the texts that start with no
token, and takes at least one character otherwise.
-/

namespace Oberon.Scan

/-- Reads a word, which is an identifier unless it is reserved. -/
def word (text : List Char) : Reading :=
  let cut := Cut.takeWhile continuesWord text
  match Word.ofSpelling? (String.ofList cut.front) with
  | some w => ⟨.word w, cut, []⟩
  | none => ⟨.ident, cut, []⟩

/-- Reads the longest mark. -/
def mark? (text : List Char) : Option Reading :=
  (Mark.longest? text).map fun m =>
    ⟨.mark m, ⟨m.spelling.toList, text.drop m.spelling.toList.length⟩, []⟩

/-- Reads the token that a text starts with. -/
def read? : List Char → Option Reading
  | [] => none
  | '"' :: rest => some (quoted '"' rest)
  | '\x27' :: rest => some (quoted '\x27' rest)
  | '\\' :: '"' :: rest => some (escapedString rest)
  | c :: rest =>
    if isDecimal c then some (number (c :: rest))
    else if startsWord c then some (word (c :: rest))
    else mark? (c :: rest)

@[simp] theorem whole_word (text : List Char) : (word text).cut.whole = text := by
  fun_cases word text <;> simp +zetaDelta

theorem whole_mark?
    {text : List Char}
    {reading : Reading}
    (h : mark? text = some reading) :
    reading.cut.whole = text := by
  obtain ⟨m, found, rfl⟩ := Option.map_eq_some_iff.mp h
  have fits := List.find?_some found
  obtain ⟨rest, rfl⟩ := List.isPrefixOf_iff_prefix.mp fits
  simp [Cut.whole]

/-- A token and the text after it are the text. -/
theorem whole_read?
    {text : List Char}
    {reading : Reading}
    (h : read? text = some reading) :
    reading.cut.whole = text := by
  unfold read? at h
  split at h
  · simp at h
  · obtain rfl := Option.some.inj h; simp
  · obtain rfl := Option.some.inj h; simp
  · obtain rfl := Option.some.inj h; simp
  · split at h
    · obtain rfl := Option.some.inj h; simp
    · split at h
      · obtain rfl := Option.some.inj h; simp
      · exact whole_mark? h

theorem front_number_ne_nil
    {c : Char}
    (rest : List Char)
    (digit : isDecimal c = true) :
    (number (c :: rest)).cut.front ≠ [] := by
  unfold number
  split
  · simp [hexadecimalNumber, numeral, Cut.after]
  · fun_cases binaryNumber <;> simp [numeral, Cut.after]
  · have leads : (digitGroups isHexadecimal (c :: rest)).cut.front ≠ [] := by
      simp [digitGroups, isHexadecimal, digit, Cut.after]
    fun_cases plainNumber (c :: rest) <;> simp +zetaDelta [numeral, Cut.after, leads]

theorem front_word_ne_nil
    {c : Char}
    (rest : List Char)
    (letter : startsWord c = true) :
    (word (c :: rest)).cut.front ≠ [] := by
  have continues : continuesWord c = true := by
    simp only [startsWord, continuesWord, Char.isAlphanum, Bool.or_eq_true] at letter ⊢
    exact letter.imp_right Or.inl
  fun_cases word (c :: rest) <;> simp +zetaDelta [Cut.takeWhile, continues]

theorem front_mark?_ne_nil
    {text : List Char}
    {reading : Reading}
    (h : mark? text = some reading) :
    reading.cut.front ≠ [] := by
  obtain ⟨m, -, rfl⟩ := Option.map_eq_some_iff.mp h
  cases m <;> simp [Mark.spelling]

/-- A token has at least one character. -/
theorem front_read?_ne_nil
    {text : List Char}
    {reading : Reading}
    (h : read? text = some reading) :
    reading.cut.front ≠ [] := by
  unfold read? at h
  split at h
  · simp at h
  · obtain rfl := Option.some.inj h
    fun_cases quoted <;> simp [openString, Cut.after]
  · obtain rfl := Option.some.inj h
    fun_cases quoted <;> simp [openString, Cut.after]
  · obtain rfl := Option.some.inj h
    fun_cases escapedString <;> simp +zetaDelta [openString, Cut.after]
  · split at h
    · obtain rfl := Option.some.inj h
      exact front_number_ne_nil _ ‹_›
    · split at h
      · obtain rfl := Option.some.inj h
        exact front_word_ne_nil _ ‹_›
      · exact front_mark?_ne_nil h

/-- What a token leaves is shorter than what it was read from. -/
theorem length_back_read?
    {text : List Char}
    {reading : Reading}
    (h : read? text = some reading) :
    reading.cut.back.length < text.length := by
  have whole := reading.cut.length_whole
  have some_read := List.length_pos_iff.mpr (front_read?_ne_nil h)
  rw [whole_read? h] at whole
  omega

end Oberon.Scan
