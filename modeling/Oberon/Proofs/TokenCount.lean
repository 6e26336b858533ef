import Oberon.Proofs.Enclosure
import Oberon.Proofs.IssueTokens

/-!
# The number of tokens

Scanning comes to an end, and soon.  No call of the scanner goes back or past the end of the text,
and every token takes a character with it, except for empty assembler text, which takes the scanner
out of the code that the word `CODE` has led into (`Scanner.offset_lt_next`).

A run has at most one step more than there are characters left.  Assembler text would make it one
more, but is paid for by the word before it, which has four characters for one token
(`Scanner.length_run_le`).
-/

namespace Oberon

namespace Scan

/-- The word `CODE` has more than one character. -/
theorem two_le_length_front_of_code
    {text : List Char}
    {reading : Reading}
    (found : read? text = some reading)
    (code : reading.symbol = .word .CODE) :
    2 ≤ reading.cut.front.length := by
  have plain := (spelled_read? found).plain
  rw [code] at plain
  rw [plain rfl]
  decide

end Scan

namespace Scanner

open Scan

variable
  {text : List Char}
  {scanner : Scanner}

/-- The scanner still stands in its text after any number of steps. -/
theorem stands_skip
    (stands : scanner.Stands text)
    (count : Nat) :
    (scanner.skip count).Stands text := by
  induction count with
  | zero => exact stands
  | succ count ih => exact (steps_next ih).stands

/-- A step does not go back. -/
theorem offset_le_next
    (scanner : Scanner) :
    scanner.offset ≤ scanner.next.scanner.offset := by
  have step := advance_next scanner
  generalize scanner.next = next at step ⊢
  cases step <;> simp only [tokenAt, lexemeAt, endAt] <;> omega

/-- Out of code, a token takes the scanner on. -/
theorem offset_lt_next
    (out : scanner.inCode = false)
    (continues : scanner.next.lexeme.symbol ≠ .endOfFile) :
    scanner.offset < scanner.next.scanner.offset := by
  have step := advance_next scanner
  generalize scanner.next = next at step continues ⊢
  cases step with
  | token offset _ _ found =>
    have filled := List.length_pos_iff.mpr (front_read?_ne_nil found)
    simp only [tokenAt, lexemeAt]
    omega
  | assembler => cases out
  | stray => exact absurd rfl continues
  | unclosed => exact absurd rfl continues

/-- Assembler text takes the scanner out of code. -/
theorem inCode_next_of_inCode
    (within : scanner.inCode = true) :
    scanner.next.scanner.inCode = false := by
  have assembler := (symbol_next_eq_assembler_iff scanner).mpr within
  rw [← Bool.not_eq_true, inCode_next_iff, assembler]
  exact nofun

/-- A token leaves one more character unread than the rest of the run needs. -/
theorem length_rest_next_lt
    (continues : scanner.next.lexeme.symbol ≠ .endOfFile) :
    scanner.next.scanner.rest.length + scanner.next.scanner.inCode.toNat <
      scanner.rest.length + scanner.inCode.toNat := by
  have step := advance_next scanner
  generalize scanner.next = next at step continues ⊢
  cases step with
  | @token gap text reading offset _ _ found =>
    have whole := reading.cut.length_whole
    rw [whole_read? found] at whole
    have filled := List.length_pos_iff.mpr (front_read?_ne_nil found)
    simp only [tokenAt, List.length_append, Bool.toNat_false]
    by_cases code : reading.symbol = .word .CODE
    · -- the word pays for itself and for the assembler text after it
      have long := two_le_length_front_of_code found code
      simp only [code, beq_self_eq_true, Bool.toNat_true]
      omega
    · simp only [beq_eq_false_iff_ne.mpr code, Bool.toNat_false]
      omega
  | @assembler gap text offset _ _ =>
    have whole := (assemblerText text).length_whole
    rw [whole_assemblerText] at whole
    have out : (Symbol.assembler == .word .CODE) = false := rfl
    simp only [tokenAt, List.length_append, Bool.toNat_true, out, Bool.toNat_false]
    omega
  | stray => exact absurd rfl continues
  | unclosed => exact absurd rfl continues

/-- A run has at most one step for every character left, one for assembler text that is due, and one
for the end. -/
theorem length_run_le
    (scanner : Scanner) :
    scanner.run.length ≤ scanner.rest.length + scanner.inCode.toNat + 1 := by
  fun_induction run scanner with
  | case1 scanner step ends =>
    rw [List.length_singleton]
    omega
  | case2 scanner step continues ih =>
    have shorter : step.scanner.rest.length + step.scanner.inCode.toNat <
        scanner.rest.length + scanner.inCode.toNat :=
      length_rest_next_lt continues
    rw [List.length_cons]
    omega

/-- A run consists of the calls of the scanner one after the other. -/
theorem run_eq_map_range
    (scanner : Scanner) :
    scanner.run = (List.range scanner.run.length).map fun count => (scanner.skip count).next := by
  fun_induction run scanner with
  | case1 scanner step ends => rfl
  | case2 scanner step continues ih =>
    rw [List.length_cons, List.range_succ_eq_map, List.map_cons, List.map_map]
    refine congrArg _ (ih.trans (List.map_congr_left fun count _ => ?_))
    exact congrArg next (skip_next scanner count)

/-- The last call of a run, and none before it, yields the end of the file. -/
theorem symbol_skip_eq_endOfFile_iff
    (scanner : Scanner) :
    ∀ count < scanner.run.length,
      (scanner.skip count).next.lexeme.symbol = .endOfFile ↔ count + 1 = scanner.run.length := by
  fun_induction run scanner with
  | case1 scanner step ends =>
    intro count within
    obtain rfl : count = 0 := by simpa using within
    exact iff_of_true ends rfl
  | case2 scanner step continues ih =>
    intro count within
    rw [List.length_cons] at within ⊢
    cases count with
    | zero =>
      have several := List.length_pos_iff.mpr (run_ne_nil step.scanner)
      exact iff_of_false continues (by omega)
    | succ count =>
      rw [← skip_next, Nat.add_right_cancel_iff]
      exact ih count (Nat.lt_of_succ_lt_succ within)

/-- What one call of a scanner does, after a number of others. -/
structure Proceeds (text : List Char) (scanner : Scanner) (count : Nat) : Prop where
  forward : (scanner.skip count).offset ≤ (scanner.skip (count + 1)).offset
  within : (scanner.skip (count + 1)).offset ≤ text.length
  advances : (scanner.skip count).next.lexeme.symbol ≠ .endOfFile →
    (scanner.skip count).offset < (scanner.skip (count + 1)).offset ∨
      (scanner.skip count).inCode = true ∧ (scanner.skip (count + 1)).inCode = false ∧
        ∃ earlier, count = earlier + 1 ∧
          (scanner.skip earlier).next.lexeme.symbol = .word .CODE

/-- Every call proceeds from the beginning of a text. -/
theorem proceeds_ofText
    (text : List Char)
    (count : Nat) :
    (ofText text).Proceeds text count := by
  refine ⟨offset_le_next _, (stands_skip (stands_ofText text) (count + 1)).offset_le, ?_⟩
  intro continues
  cases within : ((ofText text).skip count).inCode with
  | false => exact .inl (offset_lt_next within continues)
  | true =>
    refine .inr ⟨rfl, inCode_next_of_inCode within, ?_⟩
    cases count with
    | zero => cases within
    | succ earlier => exact ⟨earlier, rfl, (inCode_next_iff _).mp within⟩

end Scanner

/-- Scanning ends after at most one call more than the source has characters.  Until then every call
yields a token, and either goes on in the text or ends a piece of code; no call, not even a later
one, goes back or past the end of the text. -/
theorem Source.scan_bounded
    (source : Source) :
    (∀ count, (Scanner.ofText source.text).Proceeds source.text count) ∧
      ∃ calls, calls ≤ source.text.length ∧
        (TokenStream.ofSource source).lexemes = (List.range (calls + 1)).map
          (fun count => ((Scanner.ofText source.text).skip count).next.lexeme) ∧
        ∀ count, count ≤ calls →
          (((Scanner.ofText source.text).skip count).next.lexeme.symbol = .endOfFile ↔
            count = calls) := by
  refine ⟨Scanner.proceeds_ofText source.text, ?_⟩
  generalize started : Scanner.ofText source.text = scanner
  have bounded := scanner.length_run_le
  rw [← started] at bounded
  obtain ⟨calls, counted⟩ := Nat.exists_eq_add_one.mpr (List.length_pos_iff.mpr scanner.run_ne_nil)
  refine ⟨calls, ?_, ?_, ?_⟩
  · rw [started, counted, ← started] at bounded
    exact Nat.le_of_succ_le_succ bounded
  · rw [TokenStream.ofSource, TokenStream.ofText, started, scanner.run_eq_map_range, counted,
      List.map_map]
    rfl
  · intro count earlier
    rw [scanner.symbol_skip_eq_endOfFile_iff count (by omega), counted, Nat.add_right_cancel_iff]

end Oberon
