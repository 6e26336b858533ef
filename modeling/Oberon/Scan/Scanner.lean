import Oberon.Scan.Layout
import Oberon.Scan.Reading
import Oberon.Text.Utf8

/-!
# The scanner

A scanner stands somewhere in a text and hands out one token after another.  `Scanner.next` skips
layout and reads a token.  A character that starts no token ends the input: the scanner stays
there and reports the end of the file, with the same issue, however often it is asked.

`Scanner.run` collects everything up to and including the first end of the file.  It ends because
every other token takes a character, except for empty assembler text, which follows `CODE`.
-/

namespace Oberon

open Scan

/-- A place in a text: the characters that have not been read, how many have been, and whether
assembler text comes next, as it does right after `CODE`. -/
structure Scanner where
  rest : List Char
  offset : Nat
  inCode : Bool
  deriving DecidableEq, Repr

/-- What one step of the scanner yields: a token with its text, the issues that it records, and the
place after the token. -/
structure Scanned where
  lexeme : Lexeme
  issues : List Issue
  scanner : Scanner
  deriving DecidableEq, Repr

namespace Scanner

/-- The beginning of a text. -/
def ofText (text : List Char) : Scanner := ⟨text, 0, false⟩

/-- The lexeme that covers some characters from a place on. -/
def lexemeAt (symbol : Symbol) (start : Nat) (text : List Char) : Lexeme :=
  ⟨⟨symbol, toWord start, toWord (start + text.length)⟩,
    if symbol.hasText then String.ofList text else ""⟩

/-- Where all places are offsets, the token covers the characters. -/
theorem token_lexemeAt
    (symbol : Symbol)
    {start : Nat}
    {text : List Char}
    (short : start + text.length < wordCount) :
    (lexemeAt symbol start text).token = ⟨symbol, start, start + text.length⟩ := by
  rw [lexemeAt, toWord_of_lt (Nat.lt_of_le_of_lt (Nat.le_add_right _ _) short), toWord_of_lt short]

/-- The end of the input at a place. -/
def endAt (flaws : List Flaw) (start : Nat) (rest : List Char) : Scanned :=
  { lexeme := ⟨.endAt (toWord start), ""⟩
    issues := flaws.map (⟨·, .endAt (toWord start)⟩)
    scanner := ⟨rest, start, false⟩ }

/-- The flaw of a text that starts with no token, unless the text is empty. -/
def strayFlaws : List Char → List Flaw
  | [] => []
  | c :: _ => [if c = Text.Utf8.replacement then .invalidUtf8 else .unknownCharacter]

/-- The token that an issue names.  Malformed numbers are reported as integers, whatever their
suffix makes of them. -/
def issueToken (flaw : Flaw) (token : Token) : Token :=
  match flaw with
  | .malformedNumber => { token with symbol := .integer }
  | _ => token

/-- A token read from a place on. -/
def tokenAt (start : Nat) (reading : Reading) : Scanned :=
  let lexeme := lexemeAt reading.symbol start reading.cut.front
  { lexeme
    issues := reading.flaws.map fun flaw => ⟨flaw, issueToken flaw lexeme.token⟩
    scanner :=
      ⟨reading.cut.back, start + reading.cut.front.length, reading.symbol == .word .CODE⟩ }

/-- The assembler text after `CODE`. -/
def nextAssembler (scanner : Scanner) : Scanned :=
  let gap := Cut.takeWhile isBlank scanner.rest
  tokenAt (scanner.offset + gap.front.length) ⟨.assembler, assemblerText gap.back, []⟩

/-- The token after blanks and comments. -/
def nextToken (scanner : Scanner) : Scanned :=
  let gap := layout scanner.rest
  let start := scanner.offset + gap.cut.front.length
  if gap.valid then
    match read? gap.cut.back with
    | some reading => tokenAt start reading
    | none => endAt (strayFlaws gap.cut.back) start gap.cut.back
  else
    endAt [.unterminatedComment] start gap.cut.back

/-- Scans one token. -/
def next (scanner : Scanner) : Scanned :=
  if scanner.inCode then scanner.nextAssembler else scanner.nextToken

/-- Characters left to read, counted twice, and the assembler text that is due. -/
def remaining (scanner : Scanner) : Nat := 2 * scanner.rest.length + scanner.inCode.toNat

theorem remaining_tokenAt_le
    (start : Nat)
    (reading : Reading) :
    (tokenAt start reading).scanner.remaining ≤ 2 * reading.cut.back.length + 1 := by
  have h := Bool.toNat_le (reading.symbol == .word .CODE)
  simp only [tokenAt, remaining]
  omega

theorem remaining_nextAssembler
    (scanner : Scanner)
    (inCode : scanner.inCode = true) :
    scanner.nextAssembler.scanner.remaining < scanner.remaining := by
  have gap := (Cut.takeWhile isBlank scanner.rest).length_whole
  have body := (assemblerText (Cut.takeWhile isBlank scanner.rest).back).length_whole
  rw [Cut.whole_takeWhile] at gap
  rw [whole_assemblerText] at body
  simp only [nextAssembler, tokenAt, remaining, inCode, Bool.toNat_true]
  have none : ((Symbol.assembler == Symbol.word .CODE) : Bool).toNat = 0 := rfl
  omega

theorem remaining_nextToken
    (scanner : Scanner)
    (notEnd : scanner.nextToken.lexeme.symbol ≠ .endOfFile) :
    scanner.nextToken.scanner.remaining < scanner.remaining := by
  have gap := (layout scanner.rest).cut.length_whole
  rw [whole_layout] at gap
  unfold nextToken at notEnd ⊢
  simp only at notEnd ⊢
  split at notEnd
  · split at notEnd
    · rename_i reading found
      have shorter := length_back_read? found
      have bound := remaining_tokenAt_le
        (scanner.offset + (layout scanner.rest).cut.front.length) reading
      simp only [*, ↓reduceIte, remaining] at bound ⊢
      omega
    · exact absurd rfl notEnd
  · exact absurd rfl notEnd

/-- A step that does not yield the end of the file leaves less to read. -/
theorem remaining_next
    (scanner : Scanner)
    (notEnd : scanner.next.lexeme.symbol ≠ .endOfFile) :
    scanner.next.scanner.remaining < scanner.remaining := by
  unfold next at notEnd ⊢
  split
  · exact remaining_nextAssembler scanner ‹_›
  · rw [if_neg ‹_›] at notEnd
    exact remaining_nextToken scanner notEnd

/-- All steps up to and including the first end of the file. -/
def run (scanner : Scanner) : List Scanned :=
  let step := scanner.next
  if step.lexeme.symbol = .endOfFile then [step] else step :: run step.scanner
termination_by scanner.remaining
decreasing_by exact remaining_next scanner ‹_›

end Scanner

end Oberon
