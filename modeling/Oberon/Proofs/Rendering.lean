import Mathlib.Data.List.Forall2
import Oberon.Proofs.Complaints
import Oberon.Proofs.IssueTokens
import Oberon.Proofs.Lookahead
import Oberon.Proofs.Numerals

/-!
# Diagnostics are lines

Tools that read diagnostics read them line by line, so a diagnostic has to be printed as one line
that begins with its place.  Whether it does depends on what its message says (`Text.Unbroken`).

The place is that of a token of the source, which the line table finds as long as line numbers and
columns are machine words (`Parsed.found_mem_tokens`).

Two messages quote the source.  A character that starts no token is escaped, and a malformed number
consists of the few characters that numbers are made of (`Scan.forall_mem_front_number`), of which
the line feed is none.  All other messages are put together from the names of symbols and of rules
of the grammar, of which there are finitely many (`Grammar.gives_unbroken`).
-/

namespace Oberon

namespace Text

/-- A text without a line feed. -/
def Unbroken (text : String) : Prop := '\n' ∉ text.toList

instance (text : String) : Decidable (Unbroken text) :=
  inferInstanceAs (Decidable (¬ '\n' ∈ text.toList))

variable
  {text other : String}

theorem unbroken_append :
    Unbroken (text ++ other) ↔ Unbroken text ∧ Unbroken other := by
  rw [Unbroken, String.toList_append, List.mem_append, not_or]
  rfl

theorem Unbroken.append
    (first : Unbroken text)
    (second : Unbroken other) :
    Unbroken (text ++ other) :=
  unbroken_append.mpr ⟨first, second⟩

theorem unbroken_ofList
    {characters : List Char} :
    Unbroken (String.ofList characters) ↔ '\n' ∉ characters := by
  rw [Unbroken, String.toList_ofList]

/-- True if no byte of a text is a line feed.  The bytes of a literal are found faster than its
characters. -/
def lineFeedFree (text : String) : Bool := text.toByteArray.data.toList.all (· != 10)

theorem unbroken_of_lineFeedFree
    (free : lineFeedFree text = true) :
    Unbroken text := by
  intro member
  have byte : 10 ∈ text.toByteArray.data.toList := by
    rw [← String.utf8Encode_toList, List.utf8Encode, List.data_toByteArray, List.toList_toArray]
    exact List.mem_flatMap.mpr ⟨'\n', member, by decide⟩
  exact absurd (List.all_eq_true.mp free 10 byte) (by decide)

theorem lineFeed_notMem_toDigits
    {base : Nat}
    (several : 1 < base)
    (n : Nat) :
    '\n' ∉ Nat.toDigits base n := by
  induction n using Nat.strongRecOn with
  | ind n ih =>
    rw [Nat.toDigits_eq_if several]
    split
    · simp
    · rename_i large
      have filled : 0 < n := by omega
      rw [List.mem_append, not_or]
      exact ⟨ih _ (Nat.div_lt_self filled several), by simp⟩

theorem unbroken_toString
    (n : Nat) :
    Unbroken (toString n) := by
  rw [Unbroken, Nat.toString_eq_repr, Nat.toList_repr]
  exact lineFeed_notMem_toDigits (by decide) n

theorem unbroken_intercalate
    {separator : String}
    {pieces : List String}
    (between : Unbroken separator)
    (each : ∀ piece ∈ pieces, Unbroken piece) :
    Unbroken (separator.intercalate pieces) := by
  induction pieces with
  | nil =>
    rw [String.intercalate_nil]
    decide
  | cons piece rest ih =>
    obtain ⟨first, others⟩ := List.forall_mem_cons.mp each
    cases rest with
    | nil => exact first
    | cons next rest =>
      rw [String.intercalate_cons_cons]
      exact (first.append between).append (ih others)

/-- An escaped character does not break the line, not even the line feed. -/
theorem unbroken_escapeChar
    (c : Char) :
    Unbroken (escapeChar c) := by
  fun_cases escapeChar c with
  | case1 => decide
  | case2 => decide
  | case3 =>
    fun_cases escapeUnquoted c with
    | case1 => decide
    | case2 => decide
    | case3 => decide
    | case4 => decide
    | case5 => decide
    | case6 =>
      have digits := unbroken_ofList.mpr
        (lineFeed_notMem_toDigits (by decide : 1 < 16) c.toNat)
      exact (Unbroken.append (by decide) digits).append (by decide)
    | case7 =>
      -- the line feed has an escape of its own
      have visible : c ≠ '\n' := ‹_›
      rw [Unbroken, String.toList_singleton, List.mem_singleton]
      exact visible.symm

end Text

open Text

theorem Symbol.unbroken_display
    (symbol : Symbol) :
    Unbroken symbol.display := by
  have each : ∀ symbol ∈ all, Unbroken symbol.display := by decide +kernel
  exact each symbol symbol.mem_all

/-- The names of the rules are words on a line. -/
theorem Grammar.gives_unbroken : Gives fun reason => lineFeedFree reason.rule where
  rules := by
    have each : ∀ rule ∈ Rule.all,
        (rule.production.gives fun reason => lineFeedFree reason.rule) = true := by
      decide +kernel
    exact fun rule => each rule rule.mem_all
  levels := by
    intro level
    cases level <;> decide +kernel
  depth := by
    intro level
    cases level <;> decide +kernel
  finish := by decide +kernel

/-- A violation is described on one line if its rule is named on one. -/
theorem Violation.unbroken_message
    {violation : Violation}
    (named : Unbroken violation.reason.rule) :
    Unbroken violation.message := by
  obtain ⟨token, reason⟩ := violation
  have found := token.symbol.unbroken_display
  cases reason with
  | missing expected rule =>
    have wanted := expected.unbroken_display
    have within : Unbroken rule := named
    simp only [message, unbroken_append, found, wanted, within, and_true]
    decide
  | noOperand rule =>
    have within : Unbroken rule := named
    simp only [message, unbroken_append, found, within, and_true]
    decide
  | noAlternative expected rule =>
    have wanted : Unbroken (", ".intercalate (expected.map (·.display))) := by
      refine unbroken_intercalate (by decide) fun piece member => ?_
      obtain ⟨symbol, -, rfl⟩ := List.mem_map.mp member
      exact symbol.unbroken_display
    have within : Unbroken rule := named
    simp only [message, unbroken_append, found, wanted, within, and_true]
    decide
  | tooDeep rule =>
    have limit := unbroken_toString maxNesting
    have within : Unbroken rule := named
    simp only [message, unbroken_append, found, limit, within, and_true]
    decide

namespace TokenStream

open Scan

variable
  {stream : TokenStream}

theorem sourceText_of_span
    {token other : Token}
    (same : token.span = other.span) :
    stream.sourceText token = stream.sourceText other := by
  obtain ⟨start, stop⟩ := Span.mk.inj same
  rw [sourceText, sourceText, start, stop]

/-- In a short text, a malformed number is quoted with the characters of numbers. -/
theorem lineFeed_notMem_sourceText
    {scanner : Scanner}
    {issue : Issue}
    (short : stream.text.length < wordCount)
    (stands : scanner.Stands stream.text)
    (noticed : issue ∈ scanner.next.issues)
    (malformed : issue.flaw = .malformedNumber) :
    '\n' ∉ stream.sourceText issue.token := by
  rw [sourceText_of_span (Scanner.names_next noticed).span]
  obtain ⟨before, whole, offset⟩ := stands
  have step := Scanner.advance_next scanner
  generalize scanner.next = next at step noticed ⊢
  cases step with
  | @token gap text reading _ _ _ found =>
    cases offset
    obtain ⟨flaw, flawed, rfl⟩ := List.mem_map.mp noticed
    cases malformed
    have split : stream.text = (before ++ gap) ++ reading.cut.whole := by
      rw [whole, whole_read? found, List.append_assoc]
    have covered := sourceText_lexemeAt short split
    rw [List.length_append] at covered
    rw [Scanner.tokenAt, covered, eq_number_of_malformed found flawed]
    intro member
    exact absurd (forall_mem_front_number _ _ member) (by decide)
  | assembler => cases noticed
  | stray _ _ _ _ =>
    obtain ⟨flaw, stray, rfl⟩ := List.mem_map.mp noticed
    exact absurd malformed (Scanner.ne_malformed_of_mem_strayFlaws stray)
  | unclosed _ _ _ =>
    obtain rfl := List.mem_singleton.mp noticed
    cases malformed

theorem unbroken_issueText
    {issue : Issue}
    (quoted : issue.flaw = .malformedNumber → '\n' ∉ stream.sourceText issue.token) :
    Unbroken (stream.issueText issue) := by
  obtain ⟨flaw, token⟩ := issue
  cases flaw with
  | unknownCharacter =>
    have shown := unbroken_escapeChar (stream.text[token.start]?.getD ' ')
    exact (Unbroken.append (by decide) shown).append (by decide)
  | invalidUtf8 => exact (by decide : Unbroken "Invalid utf-8 sequence, input truncated.")
  | unterminatedComment => exact (by decide : Unbroken "Unterminated comment.")
  | unterminatedString => exact (by decide : Unbroken "Unterminated string literal.")
  | malformedNumber =>
    have shown := unbroken_ofList.mpr (quoted rfl)
    exact (Unbroken.append (by decide) shown).append (by decide)

end TokenStream

/-- A diagnostic about a problem is printed as one line, which begins with a place. -/
structure Diagnostic.Renders (diagnostic : Diagnostic) (problem : Problem) (location : Location) :
    Prop where
  level : diagnostic.report.level = .error
  problem : diagnostic.report.problem = problem
  line : ∃ line, diagnostic.report.text = line ++ "\n" ∧ Text.Unbroken line
  located : ∃ rest, diagnostic.report.text =
    location.file ++ ":" ++ toString location.line ++ ":" ++ toString location.column ++
      ": ERROR: " ++ rest

namespace TokenStream

variable
  {stream : TokenStream}
  {problem : Problem}
  {token : Token}
  {body : String}

/-- A token that is located has a known place. -/
theorem Located.display_location
    (h : stream.Located token) :
    (stream.location token).display =
      stream.name ++ ":" ++ toString (stream.location token).line ++ ":" ++
        toString (stream.location token).column := by
  obtain ⟨earlier, front, back, later, -, column, -⟩ := h.cut
  have line : (stream.location token).line ≠ 0 := by
    rw [h.line]
    omega
  have other : (stream.location token).column ≠ 0 := by
    rw [column]
    omega
  rw [Location.display, if_neg line, if_neg other, h.file]
  simp only [String.append_assoc]

theorem Located.renders_diagnose
    (h : stream.Located token)
    (named : Unbroken stream.name)
    (said : Unbroken body) :
    (stream.diagnose problem token body).Renders problem (stream.location token) := by
  have printed : (stream.diagnose problem token body).report.text =
      (stream.location token).display ++ ": ERROR: " ++ body ++ "\n" := String.append_empty
  rw [h.display_location] at printed
  refine ⟨rfl, rfl, ⟨_, printed, ?_⟩, ⟨body ++ "\n", ?_⟩⟩
  · have line := unbroken_toString (stream.location token).line
    have column := unbroken_toString (stream.location token).column
    simp only [unbroken_append, named, said, line, column, and_true, true_and]
    decide
  · rw [printed, String.append_assoc, h.file]

end TokenStream

/-- A diagnostic is a line about a problem, which begins with the place that the line table finds
for a token. -/
def Diagnostic.RendersAt (diagnostic : Diagnostic) (stream : TokenStream) (problem : Problem)
    (token : Token) : Prop :=
  ∃ location, stream.locate? token = some location ∧ diagnostic.Renders problem location

/-- The diagnostics of a parsed source are lines: one for every issue of the scanner, and one more
if the source is refused. -/
structure Parsed.Rendered (parsed : Parsed) (stream : TokenStream) : Prop where
  lexical : List.Forall₂
    (fun (issue : Issue) (diagnostic : Diagnostic) =>
      diagnostic.RendersAt stream (.lexical issue.flaw) issue.token)
    stream.issues stream.diagnostics
  accepted : ∀ tree, parsed.result = .ok tree → parsed.diagnostics = stream.diagnostics
  refused : ∀ violation, parsed.result = .error violation →
    ∃ diagnostic : Diagnostic, parsed.diagnostics = stream.diagnostics ++ [diagnostic] ∧
      diagnostic.RendersAt stream (.grammatical violation.fault) violation.found

/-- What is left over is complained about. -/
theorem Parser.found_of_finish_eq_error
    {cursor after : Cursor}
    {violation : Violation}
    (failed : finish cursor = .error violation after) :
    violation.found = cursor.token := by
  obtain ⟨rest, stop, reached⟩ := cursor
  cases rest with
  | nil => cases failed
  | cons lexeme rest =>
    cases failed
    rfl

namespace Parsed

variable
  {stream : TokenStream}

theorem diagnostics_of_ok
    {tree : Tree}
    (parsed : (ofStream stream).result = .ok tree) :
    (ofStream stream).diagnostics = stream.diagnostics := by
  revert parsed
  fun_cases ofStream stream with
  | case1 => exact fun _ => rfl
  | case2 => rintro ⟨⟩

theorem diagnostics_of_error
    {violation : Violation}
    (refused : (ofStream stream).result = .error violation) :
    (ofStream stream).diagnostics = stream.diagnostics ++ [violation.diagnostic stream] := by
  revert refused
  fun_cases ofStream stream with
  | case1 => rintro ⟨⟩
  | case2 =>
    rintro ⟨⟩
    rfl

/-- A source is refused for one of its tokens. -/
theorem found_mem_tokens
    {source : Source}
    {violation : Violation}
    (refused : (ofSource source).result = .error violation) :
    violation.found ∈ (TokenStream.ofSource source).tokens := by
  obtain ⟨buffer, closed⟩ := Buffer.exists_closed_eq source
  have begins : Cursor.ofStream (.ofSource source) = buffer.cursor 0 0 := by
    rw [Cursor.ofStream, ← closed, Buffer.ofLexemes_closed]
  obtain ⟨result, last, reached, settled⟩ := Production.local_run
    (Level.local_parse maxNesting) Rule.moduleUnit.production buffer 0 0 (Nat.zero_le _)
  have ends : Rule.moduleUnit.parse.outcome (buffer.cursor 0 0) =
      (result, buffer.cursor last reached) := settled.same buffer (.refl _ _)
  obtain ⟨after, failed⟩ := exists_of_result_eq_error refused
  rw [begins] at failed
  have among : buffer.closed[last]?.map (·.token) = some violation.found := by
    rcases Parser.bind_eq_error_iff.mp failed with early | ⟨tree, middle, parsed, late⟩
    · rw [Parser.outcome, early, Prod.mk.injEq] at ends
      exact settled.blames violation ends.1.symm
    · -- the module was read, and something follows it
      rw [Parser.outcome, parsed, Prod.mk.injEq] at ends
      obtain ⟨-, rfl⟩ := ends
      rcases Parser.bind_eq_error_iff.mp late with unfinished | ⟨_, _, -, impossible⟩
      · rw [Buffer.getElem?_closed settled.within reached, Option.map_some,
          Parser.found_of_finish_eq_error unfinished, Cursor.token]
      · exact absurd impossible (Parser.pure_ne_error _)
  obtain ⟨lexeme, found, same⟩ := Option.map_eq_some_iff.mp among
  rw [closed] at found
  exact same ▸ List.mem_map_of_mem (List.mem_of_getElem? found)

end Parsed

end Oberon
