import Oberon.Proofs.Gaps
import Oberon.Proofs.Stream

/-!
# One step of the scanner

`Scanner.Advance` lists what a step of the scanner can be: a token after a gap, assembler text after
blanks, a character after a gap that starts no token, or a comment that is never closed.  A step is
what `Scanner.next` does and nothing else (`Scanner.advance_iff`), so that what holds of all steps
is proved by cases, and a step is carried out by saying which case it is.

The end of the file is the end: every later step yields it again (`Scanner.lexeme_skip_of_end`).
-/

namespace Oberon

namespace Scanner

open Scan

/-- What a step of the scanner can be. -/
inductive Advance : Scanner → Scanned → Prop
  | token
      {gap text : List Char}
      {reading : Reading}
      (offset : Nat)
      (skipped : Gap gap)
      (bare : startsGap text = false)
      (found : read? text = some reading) :
      Advance ⟨gap ++ text, offset, false⟩ (tokenAt (offset + gap.length) reading)
  | assembler
      {gap text : List Char}
      (offset : Nat)
      (blank : ∀ c ∈ gap, isBlank c = true)
      (bare : text.head?.any isBlank = false) :
      Advance ⟨gap ++ text, offset, true⟩
        (tokenAt (offset + gap.length) ⟨.assembler, assemblerText text, []⟩)
  | stray
      {gap text : List Char}
      (offset : Nat)
      (skipped : Gap gap)
      (bare : startsGap text = false)
      (unknown : read? text = none) :
      Advance ⟨gap ++ text, offset, false⟩ (endAt (strayFlaws text) (offset + gap.length) text)
  | unclosed
      {gap comment : List Char}
      (offset : Nat)
      (skipped : Gap gap)
      (swallowed : Unterminated comment) :
      Advance ⟨gap ++ comment, offset, false⟩
        (endAt [.unterminatedComment] (offset + (gap ++ comment).length) [])

theorem Advance.next_eq
    {scanner : Scanner}
    {step : Scanned}
    (h : Advance scanner step) :
    scanner.next = step := by
  cases h with
  | token _ skipped bare found =>
    simp [next, nextToken, skipped.layout_append, layout_of_not_startsGap bare, Verdict.after,
      Cut.after, Cut.start, found]
  | assembler _ blank bare => simp [next, nextAssembler, Cut.takeWhile_append blank bare]
  | stray _ skipped bare unknown =>
    simp [next, nextToken, skipped.layout_append, layout_of_not_startsGap bare, Verdict.after,
      Cut.after, Cut.start, unknown]
  | unclosed _ skipped swallowed =>
    simp [next, nextToken, skipped.layout_append, swallowed.layout_eq, Verdict.after, Cut.after]

theorem advance_next
    (scanner : Scanner) :
    Advance scanner scanner.next := by
  rcases scanner with ⟨rest, offset, inCode⟩
  cases inCode with
  | true =>
    have whole := Cut.whole_takeWhile isBlank rest
    have step := Advance.assembler offset (Cut.forall_mem_front_takeWhile isBlank rest)
      (Cut.head?_back_takeWhile isBlank rest)
    rw [← Cut.whole, whole] at step
    rwa [step.next_eq]
  | false =>
    generalize seen : layout rest = verdict
    have cases := laidOut_layout rest
    rw [seen] at cases
    cases cases with
    | @closed gap text skipped bare =>
      cases found : read? text with
      | some reading =>
        have step := Advance.token offset skipped bare found
        rwa [step.next_eq]
      | none =>
        have step := Advance.stray offset skipped bare found
        rwa [step.next_eq]
    | unclosed skipped swallowed =>
      have step := Advance.unclosed offset skipped swallowed
      rwa [step.next_eq]

/-- The steps are those of `next`. -/
theorem advance_iff
    {scanner : Scanner}
    {step : Scanned} :
    Advance scanner step ↔ scanner.next = step := by
  constructor
  · exact Advance.next_eq
  · rintro rfl
    exact advance_next scanner

theorem run_of_end
    {scanner : Scanner}
    (ends : scanner.next.lexeme.symbol = .endOfFile) :
    scanner.run = [scanner.next] := by
  rw [run]
  exact if_pos ends

theorem run_of_token
    {scanner : Scanner}
    (continues : scanner.next.lexeme.symbol ≠ .endOfFile) :
    scanner.run = scanner.next :: scanner.next.scanner.run := by
  rw [run]
  exact if_neg continues

theorem run_ne_nil
    (scanner : Scanner) :
    scanner.run ≠ [] := by
  rw [run]
  split <;> simp

/-- Every step of a run is a step from some place of the text. -/
theorem exists_of_mem_run
    {text : List Char}
    {scanner : Scanner}
    {step : Scanned}
    (stands : scanner.Stands text)
    (member : step ∈ scanner.run) :
    ∃ place : Scanner, place.Stands text ∧ place.next = step := by
  fun_induction run scanner with
  | case1 scanner next ends => exact ⟨scanner, stands, (List.mem_singleton.mp member).symm⟩
  | case2 scanner next continues ih =>
    rcases List.mem_cons.mp member with rfl | later
    · exact ⟨scanner, stands, rfl⟩
    · exact ih (steps_next stands).stands later

/-- After the end of the file comes the end of the file. -/
theorem lexeme_next_of_end
    {scanner : Scanner}
    (ends : scanner.next.lexeme.symbol = .endOfFile) :
    scanner.next.scanner.next.lexeme = scanner.next.lexeme := by
  have step := advance_next scanner
  generalize scanner.next = first at step ends ⊢
  cases step with
  | token _ _ _ found => exact absurd ends (spelled_read? found).token
  | assembler => cases ends
  | @stray gap text offset _ bare unknown =>
    have again := (Advance.stray (offset + gap.length) .nil bare unknown).next_eq
    exact congrArg Scanned.lexeme again
  | @unclosed gap comment offset =>
    have again : next ⟨[], offset + (gap ++ comment).length, false⟩ =
        endAt [] (offset + (gap ++ comment).length) [] :=
      (Advance.stray _ .nil rfl rfl).next_eq
    rw [endAt, again]
    rfl

/-- The scanner after a number of steps. -/
def skip (scanner : Scanner) : Nat → Scanner
  | 0 => scanner
  | count + 1 => (scanner.skip count).next.scanner

/-- All later steps yield the end of the file again. -/
theorem lexeme_skip_of_end
    {scanner : Scanner}
    {first later : Nat}
    (order : first ≤ later)
    (ends : (scanner.skip first).next.lexeme.symbol = .endOfFile) :
    (scanner.skip later).next.lexeme = (scanner.skip first).next.lexeme := by
  induction order with
  | refl => rfl
  | @step later _ ih =>
    have still : (scanner.skip later).next.lexeme.symbol = .endOfFile := by rw [ih, ends]
    rw [skip, lexeme_next_of_end still, ih]

end Scanner

end Oberon
