import Oberon.Proofs.Reporting

/-!
# The token that an issue names

A scanner is asked for one token after another, and keeps the issues that it notices on the way
(`Scanner.recorded`).  One call adds at most one issue, and the token of that issue covers the
characters of the token that the call returns (`Issue.Names`).

It is the returned token itself unless a number is malformed.  Malformed numbers are recorded as
integers, also where the point or the suffix makes a real number or a character code of them, so
that the two tokens differ in their symbols there, and nowhere else
(`Source.issue_token_eq_iff`).
-/

namespace Oberon

/-- An issue is about a token, and is recorded with that token or with what a malformed number is
taken for. -/
structure Issue.Names (issue : Issue) (token : Token) : Prop where
  span : issue.token.span = token.span
  numeral : issue.flaw = .malformedNumber → issue.token.symbol = .integer ∧
    (token.symbol = .integer ∨ token.symbol = .real ∨ token.symbol = .character)
  exact : issue.token = token ↔
    ¬ (issue.flaw = .malformedNumber ∧ (token.symbol = .real ∨ token.symbol = .character))

namespace Issue

variable
  {flaw : Flaw}
  {token : Token}

theorem names_self
    (other : flaw ≠ .malformedNumber) :
    (⟨flaw, token⟩ : Issue).Names token := by
  refine ⟨rfl, ?_, ?_⟩
  · intro malformed
    exact absurd malformed other
  · exact iff_of_true rfl fun malformed => other malformed.1

theorem names_integer
    (kind : token.symbol = .integer ∨ token.symbol = .real ∨ token.symbol = .character) :
    (⟨.malformedNumber, ⟨.integer, token.start, token.stop⟩⟩ : Issue).Names token := by
  rcases token with ⟨symbol, start, stop⟩
  refine ⟨rfl, fun _ => ⟨rfl, kind⟩, ?_⟩
  rcases kind with rfl | rfl | rfl <;> simp

end Issue

namespace Scan

/-- Nothing but a number is malformed. -/
theorem eq_number_of_malformed
    {text : List Char}
    {reading : Reading}
    (found : read? text = some reading)
    (malformed : .malformedNumber ∈ reading.flaws) :
    reading = number text := by
  cases recognized_of_read? found with
  | @quoted delimiter rest _ =>
    revert malformed
    fun_cases quoted delimiter rest with
    | case1 =>
      intro malformed
      cases List.mem_singleton.mp malformed
    | case2 => rintro ⟨⟩
  | escaped rest =>
    revert malformed
    fun_cases escapedString rest with
    | case1 => rintro ⟨⟩
    | case2 =>
      intro malformed
      cases List.mem_singleton.mp malformed
  | number => rfl
  | word =>
    rw [flaws_word] at malformed
    cases malformed
  | mark _ _ => cases malformed

end Scan

namespace Scanner

open Scan

variable
  {scanner : Scanner}

theorem names_issueToken
    {flaw : Flaw}
    {token : Token}
    (kind : flaw = .malformedNumber →
      token.symbol = .integer ∨ token.symbol = .real ∨ token.symbol = .character) :
    (⟨flaw, issueToken flaw token⟩ : Issue).Names token := by
  cases flaw with
  | malformedNumber => exact Issue.names_integer (kind rfl)
  | unknownCharacter => exact Issue.names_self nofun
  | invalidUtf8 => exact Issue.names_self nofun
  | unterminatedComment => exact Issue.names_self nofun
  | unterminatedString => exact Issue.names_self nofun

theorem ne_malformed_of_mem_strayFlaws
    {text : List Char}
    {flaw : Flaw}
    (h : flaw ∈ strayFlaws text) :
    flaw ≠ .malformedNumber := by
  cases text with
  | nil => cases h
  | cons c rest =>
    obtain rfl := List.mem_singleton.mp h
    split <;> exact Flaw.noConfusion

/-- What a step reports is about the token that it yields. -/
theorem names_next
    {issue : Issue}
    (noticed : issue ∈ scanner.next.issues) :
    issue.Names scanner.next.lexeme.token := by
  have step := advance_next scanner
  generalize scanner.next = next at step noticed ⊢
  cases step with
  | token _ _ _ found =>
    obtain ⟨flaw, flawed, rfl⟩ := List.mem_map.mp noticed
    refine names_issueToken ?_
    rintro rfl
    rw [eq_number_of_malformed found flawed]
    exact symbol_number _
  | assembler => cases noticed
  | stray _ _ _ _ =>
    obtain ⟨flaw, stray, rfl⟩ := List.mem_map.mp noticed
    exact Issue.names_self (ne_malformed_of_mem_strayFlaws stray)
  | unclosed _ _ _ =>
    obtain rfl := List.mem_singleton.mp noticed
    exact Issue.names_self nofun

/-- The issues that a scanner has noticed after a number of steps. -/
def recorded (scanner : Scanner) : Nat → List Issue
  | 0 => []
  | count + 1 => scanner.recorded count ++ (scanner.skip count).next.issues

theorem skip_next
    (scanner : Scanner)
    (count : Nat) :
    scanner.next.scanner.skip count = scanner.skip (count + 1) := by
  induction count with
  | zero => rfl
  | succ count ih =>
    rw [skip, ih]
    rfl

/-- What is noticed after a first step comes behind what that step reports. -/
theorem recorded_next
    (scanner : Scanner)
    (count : Nat) :
    scanner.recorded (count + 1) =
      scanner.next.issues ++ scanner.next.scanner.recorded count := by
  induction count with
  | zero => exact (List.append_nil _).symm
  | succ count ih => rw [recorded, ih, recorded, skip_next, List.append_assoc]

/-- The issues of a run are those that as many calls record. -/
theorem flatMap_issues_run
    (scanner : Scanner) :
    scanner.run.flatMap (·.issues) = scanner.recorded scanner.run.length := by
  fun_induction run scanner with
  | case1 scanner step ends => exact List.flatMap_singleton _ _
  | case2 scanner step continues ih =>
    rw [List.length_cons, recorded_next, ← ih, List.flatMap_cons]

end Scanner

/-- A call of the scanner records at most one issue, about the token that it returns: the issue
names that very token unless it is a malformed real number or character code, which is recorded as
an integer.  The issues of a source are those that its calls record. -/
theorem Source.issue_token_eq_iff
    (source : Source) :
    (TokenStream.ofSource source).issues =
        (Scanner.ofText source.text).recorded (TokenStream.ofSource source).lexemes.length ∧
      ∀ count, ∃ appended : List Issue,
        (Scanner.ofText source.text).recorded (count + 1) =
            (Scanner.ofText source.text).recorded count ++ appended ∧
          appended.length ≤ 1 ∧
          ∀ issue ∈ appended,
            issue.Names ((Scanner.ofText source.text).skip count).next.lexeme.token := by
  refine ⟨?_, ?_⟩
  · simp only [TokenStream.ofSource, TokenStream.ofText, List.length_map]
    exact Scanner.flatMap_issues_run _
  · intro count
    exact ⟨_, rfl, Scanner.length_issues_next_le _, fun issue => Scanner.names_next⟩

/-- The theorem tells the two tokens apart for a real number without the digits of its scale
factor. -/
theorem Source.issue_token_eq_iff_real :
    ∃ issue : Issue,
      (Scanner.ofText (Source.ofText "M" "1.5E").text).recorded 1 = [issue] ∧
        issue.token ≠ (Scanner.ofText (Source.ofText "M" "1.5E").text).next.lexeme.token := by
  obtain ⟨appended, recorded, -, named⟩ := (Source.issue_token_eq_iff (.ofText "M" "1.5E")).2 0
  have noticed : (Scanner.ofText (Source.ofText "M" "1.5E").text).recorded 1 =
      [⟨.malformedNumber, ⟨.integer, 0, 4⟩⟩] := by
    decide +kernel
  have returned : (Scanner.ofText (Source.ofText "M" "1.5E").text).next.lexeme.token.symbol =
      .real := by
    decide +kernel
  have member : (⟨.malformedNumber, ⟨.integer, 0, 4⟩⟩ : Issue) ∈ appended := by
    have same : appended = _ := recorded.symm.trans noticed
    rw [same]
    exact List.mem_singleton_self _
  refine ⟨_, noticed, ?_⟩
  intro same
  exact (named _ member).exact.mp same ⟨rfl, .inl returned⟩

end Oberon
