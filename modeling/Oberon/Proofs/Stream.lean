import Oberon.TokenStream

/-!
# The lexemes of a text

What holds of every list of lexemes that the scanner delivers: the end of the file is the last of
them and no other (`TokenStream.closed_lexemes`).  In a text that is short enough for all of its
places to be offsets, they also cover the characters they are spelled with (`Lexeme.Covers`), come
in the order of the text and do not overlap (`TokenStream.lexemes_ofText`).

A step of the scanner takes a gap and a token off the text (`Scanner.steps_next`); the rest is
induction over the steps.
-/

namespace Oberon

namespace Lexeme

/-- What the token of a lexeme reads like: its text, or the spelling of its symbol. -/
def spelling (lexeme : Lexeme) : String :=
  if lexeme.symbol.hasText then lexeme.text else lexeme.symbol.reading

/-- The lexeme with its spelling as its text. -/
def spelled (lexeme : Lexeme) : Lexeme := ⟨lexeme.token, lexeme.spelling⟩

/-- A lexeme lies in a text and covers its spelling there. -/
structure Covers (lexeme : Lexeme) (text : List Char) : Prop where
  ordered : lexeme.token.start ≤ lexeme.token.stop
  within : lexeme.token.stop ≤ text.length
  spelled : lexeme.symbol ≠ .endOfFile →
    (text.take lexeme.token.stop).drop lexeme.token.start = lexeme.spelling.toList

end Lexeme

namespace Scan

theorem hasText_quoted
    (delimiter : Char)
    (text : List Char) :
    (quoted delimiter text).symbol.hasText = true := by
  fun_cases quoted delimiter text with
  | case1 => rfl
  | case2 body closing rest back symbol =>
    simp only [symbol]
    split <;> rfl

theorem hasText_escapedString (text : List Char) :
    (escapedString text).symbol.hasText = true := by
  fun_cases escapedString text <;> rfl

theorem hasText_number (text : List Char) :
    (number text).symbol.hasText = true := by
  fun_cases number text with
  | case1 => rfl
  | case2 rest => fun_cases binaryNumber rest <;> rfl
  | case3 => fun_cases plainNumber text <;> rfl

/-- What is read is a token, and reads like its symbol if that carries no text. -/
structure Reading.Spelled (reading : Reading) : Prop where
  token : reading.symbol ≠ .endOfFile
  plain : reading.symbol.hasText = false → reading.cut.front = reading.symbol.reading.toList

theorem Reading.spelled_of_hasText
    {reading : Reading}
    (h : reading.symbol.hasText = true) :
    reading.Spelled := by
  refine ⟨?_, ?_⟩
  · intro closes
    rw [closes] at h
    cases h
  · intro plain
    rw [plain] at h
    cases h

theorem spelled_word (text : List Char) : (word text).Spelled := by
  fun_cases word text with
  | case1 cut w found =>
    have same := List.find?_some found
    simp only [beq_iff_eq] at same
    refine ⟨Symbol.noConfusion, ?_⟩
    intro _
    simp only [Symbol.reading, same, String.toList_ofList]
  | case2 cut missing => exact Reading.spelled_of_hasText rfl

theorem spelled_mark?
    {text : List Char}
    {reading : Reading}
    (h : mark? text = some reading) :
    reading.Spelled := by
  rcases Option.map_eq_some_iff.mp h with ⟨m, -, rfl⟩
  exact ⟨Symbol.noConfusion, fun _ => rfl⟩

theorem spelled_read?
    {text : List Char}
    {reading : Reading}
    (h : read? text = some reading) :
    reading.Spelled := by
  unfold read? at h
  split at h
  · cases h
  · cases h
    exact Reading.spelled_of_hasText (hasText_quoted _ _)
  · cases h
    exact Reading.spelled_of_hasText (hasText_quoted _ _)
  · cases h
    exact Reading.spelled_of_hasText (hasText_escapedString _)
  · split at h
    · cases h
      exact Reading.spelled_of_hasText (hasText_number _)
    · split at h
      · cases h
        exact spelled_word _
      · exact spelled_mark? h

end Scan

namespace Scanner

open Scan

/-- The scanner has read a text up to its offset. -/
def Stands (text : List Char) (scanner : Scanner) : Prop :=
  ∃ before, text = before ++ scanner.rest ∧ scanner.offset = before.length

theorem stands_ofText (text : List Char) : (ofText text).Stands text := ⟨[], rfl, rfl⟩

/-- What one step of the scanner does to a text.  The token begins at a place that is not before the
scanner, it covers its spelling from there up to the place where the scanner goes on, and its
offsets are those of these two places. -/
structure Steps (text : List Char) (scanner : Scanner) (step : Scanned) : Prop where
  place : ∃ start, scanner.offset ≤ start ∧ start ≤ step.scanner.offset ∧
    step.lexeme.token.start = toWord start ∧
    step.lexeme.token.stop = toWord step.scanner.offset ∧
    (step.lexeme.symbol ≠ .endOfFile →
      (text.take step.scanner.offset).drop start = step.lexeme.spelling.toList)
  stands : step.scanner.Stands text
  closes : step.lexeme.symbol = .endOfFile → step.lexeme = ⟨.endAt step.lexeme.token.start, ""⟩

variable
  {text before gap : List Char}
  {scanner : Scanner}
  {step : Scanned}

theorem Stands.offset_le
    (h : scanner.Stands text) :
    scanner.offset ≤ text.length := by
  obtain ⟨before, rfl, offset⟩ := h
  rw [offset, List.length_append]
  exact Nat.le_add_right _ _

namespace Steps

/-- In a short text, offsets are places. -/
theorem exists_start
    (h : Steps text scanner step)
    (short : text.length < wordCount) :
    scanner.offset ≤ step.lexeme.token.start ∧
      step.lexeme.token.start ≤ step.lexeme.token.stop ∧
      step.scanner.offset = step.lexeme.token.stop ∧
      (step.lexeme.symbol ≠ .endOfFile →
        (text.take step.lexeme.token.stop).drop step.lexeme.token.start =
          step.lexeme.spelling.toList) := by
  obtain ⟨start, ahead, ordered, starts, stops, spelled⟩ := h.place
  have within := h.stands.offset_le
  rw [toWord_of_lt (by omega)] at starts stops
  rw [starts, stops]
  exact ⟨ahead, ordered, rfl, spelled⟩

/-- The token does not start before the scanner. -/
theorem ahead
    (h : Steps text scanner step)
    (short : text.length < wordCount) :
    scanner.offset ≤ step.lexeme.token.start :=
  (h.exists_start short).1

/-- The scanner goes on where the token ends. -/
theorem resumes
    (h : Steps text scanner step)
    (short : text.length < wordCount) :
    step.scanner.offset = step.lexeme.token.stop :=
  (h.exists_start short).2.2.1

/-- The token covers its spelling. -/
theorem covers
    (h : Steps text scanner step)
    (short : text.length < wordCount) :
    step.lexeme.Covers text := by
  obtain ⟨-, ordered, resumes, spelled⟩ := h.exists_start short
  exact ⟨ordered, resumes ▸ h.stands.offset_le, spelled⟩

end Steps

theorem steps_tokenAt
    {reading : Reading}
    (whole : text = before ++ gap ++ reading.cut.whole)
    (offset : scanner.offset = before.length)
    (spelled : reading.Spelled) :
    Steps text scanner (tokenAt (before ++ gap).length reading) := by
  have stop : (before ++ gap).length + reading.cut.front.length =
      (before ++ gap ++ reading.cut.front).length :=
    List.length_append.symm
  have split : text = before ++ gap ++ reading.cut.front ++ reading.cut.back := by
    rw [whole, Cut.whole, List.append_assoc (before ++ gap)]
  refine ⟨⟨(before ++ gap).length, ?_, ?_, rfl, rfl, ?_⟩, ?_, ?_⟩
  · rw [offset, List.length_append]
    exact Nat.le_add_right _ _
  · exact Nat.le_add_right _ _
  · intro _
    rw [tokenAt, stop, split, List.take_left, List.drop_left]
    cases hasText : reading.symbol.hasText with
    | true => simp [lexemeAt, Lexeme.spelling, Lexeme.symbol, hasText]
    | false => simpa [lexemeAt, Lexeme.spelling, Lexeme.symbol, hasText] using spelled.plain hasText
  · exact ⟨before ++ gap ++ reading.cut.front, split, stop⟩
  · intro closes
    exact absurd closes spelled.token

theorem steps_endAt
    {rest : List Char}
    {flaws : List Flaw}
    (whole : text = before ++ gap ++ rest)
    (offset : scanner.offset = before.length) :
    Steps text scanner (endAt flaws (before ++ gap).length rest) := by
  refine ⟨⟨(before ++ gap).length, ?_, Nat.le_refl _, rfl, rfl, ?_⟩, ?_, ?_⟩
  · rw [offset, List.length_append]
    exact Nat.le_add_right _ _
  · intro notEnd
    exact absurd rfl notEnd
  · exact ⟨before ++ gap, whole, rfl⟩
  · intro _
    rfl

theorem steps_nextAssembler
    (stands : scanner.Stands text) :
    Steps text scanner scanner.nextAssembler := by
  rcases stands with ⟨before, whole, offset⟩
  have gap := Cut.whole_takeWhile isBlank scanner.rest
  have body := whole_assemblerText (Cut.takeWhile isBlank scanner.rest).back
  have start : scanner.offset + (Cut.takeWhile isBlank scanner.rest).front.length =
      (before ++ (Cut.takeWhile isBlank scanner.rest).front).length := by
    rw [offset, List.length_append]
  rw [nextAssembler, start]
  refine steps_tokenAt ?_ offset (Reading.spelled_of_hasText rfl)
  rw [body, List.append_assoc, ← Cut.whole, gap, whole]

theorem steps_nextToken
    (stands : scanner.Stands text) :
    Steps text scanner scanner.nextToken := by
  rcases stands with ⟨before, whole, offset⟩
  have gap := whole_layout scanner.rest
  have start : scanner.offset + (layout scanner.rest).cut.front.length =
      (before ++ (layout scanner.rest).cut.front).length := by
    rw [offset, List.length_append]
  have split : text =
      before ++ (layout scanner.rest).cut.front ++ (layout scanner.rest).cut.back := by
    rw [List.append_assoc, ← Cut.whole, gap, whole]
  rw [nextToken, start]
  cases valid : (layout scanner.rest).valid with
  | false => exact steps_endAt split offset
  | true =>
    cases found : read? (layout scanner.rest).cut.back with
    | none => exact steps_endAt split offset
    | some reading =>
      refine steps_tokenAt ?_ offset (spelled_read? found)
      rw [whole_read? found]
      exact split

/-- A step takes a gap and a token off the text. -/
theorem steps_next
    (stands : scanner.Stands text) :
    Steps text scanner scanner.next := by
  unfold next
  split
  · exact steps_nextAssembler stands
  · exact steps_nextToken stands

end Scanner

/-- The end of the file comes last, and nowhere else. -/
theorem Scanner.closed_run (scanner : Scanner) :
    ∃ front stop, scanner.run.map (·.lexeme) = front ++ [⟨.endAt stop, ""⟩] ∧
      ∀ lexeme ∈ front, lexeme.symbol ≠ .endOfFile := by
  fun_induction run scanner with
  | case1 scanner step ends =>
    -- what has been read plays no part
    have stands : scanner.Stands (List.replicate scanner.offset ' ' ++ scanner.rest) :=
      ⟨_, rfl, List.length_replicate.symm⟩
    refine ⟨[], step.lexeme.token.start, ?_, List.forall_mem_nil _⟩
    rw [List.map_singleton, List.nil_append, ← (steps_next stands).closes ends]
  | case2 scanner step continues ih =>
    obtain ⟨front, stop, closed, inner⟩ := ih
    refine ⟨step.lexeme :: front, stop, ?_, List.forall_mem_cons.mpr ⟨continues, inner⟩⟩
    rw [List.map_cons, closed, List.cons_append]

/-- The lexemes of a text from an offset on: each covers its spelling, none starts before the
offset, and none starts before an earlier one ends. -/
structure Lexeme.Sequence (text : List Char) (offset : Nat) (lexemes : List Lexeme) : Prop where
  covers : ∀ lexeme ∈ lexemes, lexeme.Covers text
  ahead : ∀ lexeme ∈ lexemes, offset ≤ lexeme.token.start
  ordered : lexemes.Pairwise fun earlier later => earlier.token.stop ≤ later.token.start

namespace Scanner

variable
  {text : List Char}
  {scanner : Scanner}
  {step : Scanned}

theorem sequence_of_step
    {lexemes : List Lexeme}
    (short : text.length < wordCount)
    (steps : Steps text scanner step)
    (others : Lexeme.Sequence text step.scanner.offset lexemes) :
    Lexeme.Sequence text scanner.offset (step.lexeme :: lexemes) := by
  have covers := steps.covers short
  have ahead := steps.ahead short
  have later : ∀ lexeme ∈ lexemes, step.lexeme.token.stop ≤ lexeme.token.start := by
    intro lexeme member
    rw [← steps.resumes short]
    exact others.ahead lexeme member
  refine ⟨List.forall_mem_cons.mpr ⟨covers, others.covers⟩, ?_, ?_⟩
  · refine List.forall_mem_cons.mpr ⟨ahead, fun lexeme member => ?_⟩
    exact Nat.le_trans ahead (Nat.le_trans covers.ordered (later lexeme member))
  · exact List.pairwise_cons.mpr ⟨later, others.ordered⟩

/-- All steps of the scanner together, in a text that is short enough for its places to be
offsets. -/
theorem sequence_run
    (short : text.length < wordCount)
    (stands : scanner.Stands text) :
    Lexeme.Sequence text scanner.offset (scanner.run.map (·.lexeme)) := by
  fun_induction run scanner with
  | case1 scanner step ends =>
    have nothing : Lexeme.Sequence text step.scanner.offset [] := ⟨nofun, nofun, .nil⟩
    exact sequence_of_step short (steps_next stands) nothing
  | case2 scanner step continues ih =>
    exact sequence_of_step short (steps_next stands) (ih (steps_next stands).stands)

end Scanner

namespace TokenStream

/-- The last lexeme of a stream is the end of the file, and no other is. -/
theorem closed_lexemes
    (name : String)
    (text : List Char) :
    ∃ front stop, (ofText name text).lexemes = front ++ [⟨.endAt stop, ""⟩] ∧
      ∀ lexeme ∈ front, lexeme.symbol ≠ .endOfFile :=
  (Scanner.ofText text).closed_run

/-- The lexemes of a stream are those of its text. -/
theorem lexemes_ofText
    (name : String)
    {text : List Char}
    (short : text.length < wordCount) :
    Lexeme.Sequence text 0 (ofText name text).lexemes :=
  Scanner.sequence_run short (Scanner.stands_ofText text)

end TokenStream

end Oberon
