import Oberon.Proofs.Locality

/-!
# Layout does not matter

The tokens of a source can be written down again with other gaps between them
(`TokenStream.Relaid`), and the scanner finds the same tokens (`Source.tokens_relaid`).  After
`CODE` and after assembler text only blanks may be put, since a comment there would become part of
the assembler text.

The scanner runs over both texts side by side (`Scanner.Mirrors`).  Where it finds a token in the
first one, the same characters stand in the second one, before a text that ends the token
(`Scanner.Mirrors.agrees`), and so it finds the same up to the end (`Scanner.Mirrors.contents_eq`).
-/

namespace Oberon

namespace Scan

/-- What may be put between a token of a class and the next one. -/
structure Separates (symbol : Symbol) (separator : List Char) : Prop where
  filled : separator ≠ []
  gap : Gap separator
  blank : symbol = .word .CODE ∨ symbol = .assembler → ∀ c ∈ separator, isBlank c = true

end Scan

open Scan

/-- The texts that have the characters of some tokens, with any separators between them. -/
inductive TokenStream.Relaid (stream : TokenStream) : List Token → List Char → Prop
  | nil :
      Relaid stream [] []
  | single
      (token : Token) :
      Relaid stream [token] (stream.sourceText token)
  | cons
      {token next : Token}
      {rest : List Token}
      {separator text : List Char}
      (separates : Separates token.symbol separator)
      (others : Relaid stream (next :: rest) text) :
      Relaid stream (token :: next :: rest) (stream.sourceText token ++ separator ++ text)

namespace Scan

/-- What stands behind a token: nothing behind the last one, and a separator behind all others. -/
structure Behind (stream : TokenStream) (symbol : Symbol) (rest : List Token)
    (separator text : List Char) : Prop where
  relaid : stream.Relaid rest text
  gap : Gap separator
  blank : symbol = .word .CODE ∨ symbol = .assembler → ∀ c ∈ separator, isBlank c = true
  last : separator = [] ↔ rest = []

theorem exists_behind
    {stream : TokenStream}
    {token : Token}
    {rest : List Token}
    {text : List Char}
    (relaid : stream.Relaid (token :: rest) text) :
    ∃ separator others, text = stream.sourceText token ++ (separator ++ others) ∧
      Behind stream token.symbol rest separator others := by
  cases relaid with
  | single => exact ⟨[], [], by simp, .nil, .nil, by simp, by simp⟩
  | cons separates others =>
    refine ⟨_, _, List.append_assoc _ _ _, others, separates.gap, separates.blank, ?_⟩
    simp [separates.filled]

variable
  {stream : TokenStream}
  {symbol : Symbol}
  {rest : List Token}
  {separator text : List Char}

theorem Behind.eq_nil
    (h : Behind stream symbol [] separator text) :
    separator = [] ∧ text = [] := by
  have relaid := h.relaid
  cases relaid
  exact ⟨h.last.mpr rfl, rfl⟩

theorem Gap.endsToken_append
    {gap : List Char}
    (h : Gap gap)
    (filled : gap ≠ [])
    (text : List Char) :
    endsToken (gap ++ text) = true := by
  obtain ⟨c, others, rfl, blank | rfl⟩ := h.exists_of_ne_nil filled
  · simp only [isBlank, Bool.or_eq_true, beq_iff_eq] at blank
    rcases blank with ((rfl | rfl) | rfl) | rfl <;> rfl
  · rfl

theorem Behind.endsToken
    (h : Behind stream symbol rest separator text) :
    endsToken (separator ++ text) = true := by
  by_cases filled : separator = []
  · obtain rfl := h.last.mp filled
    rw [h.eq_nil.1, h.eq_nil.2]
    rfl
  · exact h.gap.endsToken_append filled text

theorem unterminatedString_notMem_flaws_number
    (text : List Char) :
    .unterminatedString ∉ (number text).flaws := by
  obtain ⟨symbol, cut, valid, same⟩ := exists_numeral text
  rw [same]
  cases valid with
  | true => exact List.not_mem_nil
  | false => exact fun member => nomatch List.mem_singleton.mp member

/-- A string is left open at the end of the text only. -/
theorem back_of_unterminated
    {text : List Char}
    {reading : Reading}
    (found : read? text = some reading)
    (flawed : .unterminatedString ∈ reading.flaws) :
    reading.symbol = .string ∧ reading.cut.back = [] := by
  cases recognized_of_read? found with
  | @quoted delimiter rest _ =>
    by_cases closes : delimiter ∈ rest
    · obtain ⟨body, others, rfl, free⟩ := List.eq_append_cons_of_mem closes
      rw [quoted_closed free] at flawed
      cases flawed
    · rw [quoted_unclosed closes]
      exact ⟨rfl, rfl⟩
  | escaped rest =>
    by_cases closes : escapedQuote <:+: rest
    · obtain ⟨body, others, rfl, free⟩ := exists_first_escapedQuote closes
      rw [escapedString_closed free] at flawed
      cases flawed
    · rw [escapedString_unclosed closes]
      exact ⟨rfl, rfl⟩
  | number => exact absurd flawed (unterminatedString_notMem_flaws_number _)
  | word =>
    rw [flaws_word] at flawed
    cases flawed
  | mark _ _ => cases flawed

theorem cut_word
    (text : List Char) :
    (word text).cut = Cut.takeWhile continuesWord text := by
  fun_cases word text <;> rfl

theorem front_of_startsWithEnd
    {text : List Char}
    {reading : Reading}
    (ends : startsWithEnd text = true)
    (found : read? text = some reading) :
    reading.cut.front = ['E', 'N', 'D'] := by
  obtain ⟨rest, rfl, stops⟩ := startsWithEnd_iff.mp ends
  have word := (Recognized.word ('N' :: 'D' :: rest) (by decide : startsWord 'E' = true)).read?_eq
  obtain rfl := Option.some.inj (found.symm.trans word)
  have taken : Cut.takeWhile continuesWord (['E', 'N', 'D'] ++ rest) = ⟨['E', 'N', 'D'], rest⟩ :=
    Cut.takeWhile_append (List.all_eq_true.mp rfl) stops
  rw [cut_word]
  exact congrArg Cut.front taken

end Scan

namespace Scanner

/-- The tokens that a scanner comes to before the end of the file. -/
def ahead (scanner : Scanner) : List Token := (scanner.run.map (·.lexeme.token)).dropLast

theorem ahead_of_end
    {scanner : Scanner}
    (ends : scanner.next.lexeme.symbol = .endOfFile) :
    scanner.ahead = [] := by
  rw [ahead, run_of_end ends]
  rfl

theorem ahead_of_token
    {scanner : Scanner}
    (continues : scanner.next.lexeme.symbol ≠ .endOfFile) :
    scanner.ahead = scanner.next.lexeme.token :: scanner.next.scanner.ahead := by
  have others : scanner.next.scanner.run.map (·.lexeme.token) ≠ [] := by
    simpa using run_ne_nil _
  rw [ahead, run_of_token continues, List.map_cons, List.dropLast_cons_of_ne_nil others, ahead]

theorem ahead_of_nil
    (offset : Nat) :
    ahead ⟨[], offset, false⟩ = [] := by
  have step : next ⟨[], offset, false⟩ = endAt [] offset [] :=
    (Advance.stray offset .nil rfl rfl).next_eq
  apply ahead_of_end
  rw [step]
  rfl

/-- Another scanner stands before a gap and the tokens that a scanner is going to find. -/
structure Mirrors (stream : TokenStream) (scanner mirror : Scanner) (gap text : List Char) :
    Prop where
  rest : mirror.rest = gap ++ text
  inCode : mirror.inCode = scanner.inCode
  skipped : Gap gap
  blank : scanner.inCode = true → ∀ c ∈ gap, isBlank c = true
  relaid : stream.Relaid scanner.ahead text

/-- One step finds the same token in both texts, and leads to places that are alike. -/
structure Agrees (stream : TokenStream) (scanner mirror : Scanner) : Prop where
  symbol : mirror.next.lexeme.symbol = scanner.next.lexeme.symbol
  text : mirror.next.lexeme.text = scanner.next.lexeme.text
  mirrors : ∃ gap text, Mirrors stream scanner.next.scanner mirror.next.scanner gap text

variable
  {stream : TokenStream}
  {scanner mirror : Scanner}
  {gap text : List Char}

/-- Two steps agree that read the same characters. -/
theorem agrees_of_tokenAt
    {start other : Nat}
    {reading : Reading}
    {separator others : List Char}
    (next : scanner.next = tokenAt start reading)
    (found : mirror.next = tokenAt other (reading.before (separator ++ others)))
    (skipped : Gap separator)
    (blank : reading.symbol = .word .CODE → ∀ c ∈ separator, isBlank c = true)
    (relaid : stream.Relaid scanner.next.scanner.ahead others) :
    Agrees stream scanner mirror := by
  rw [next] at relaid
  refine ⟨?_, ?_, separator, others, ?_⟩
  · rw [next, found]
    rfl
  · rw [next, found]
    rfl
  · rw [next, found]
    refine ⟨rfl, rfl, skipped, ?_, relaid⟩
    intro code
    exact blank (beq_iff_eq.mp code)

/-- The tokens ahead begin with the next one, which covers what is read. -/
theorem exists_behind_ahead
    {inner : List Char}
    {reading : Reading}
    (short : stream.text.length < wordCount)
    (stands : scanner.Stands stream.text)
    (rest : scanner.rest = inner ++ reading.cut.whole)
    (next : scanner.next = tokenAt (scanner.offset + inner.length) reading)
    (spelled : reading.Spelled)
    (relaid : stream.Relaid scanner.ahead text) :
    ∃ separator others, text = reading.cut.front ++ (separator ++ others) ∧
      Behind stream reading.symbol scanner.next.scanner.ahead separator others := by
  have continues : scanner.next.lexeme.symbol ≠ .endOfFile := by
    rw [next]
    exact spelled.token
  rw [ahead_of_token continues] at relaid
  obtain ⟨separator, others, same, after⟩ := exists_behind relaid
  have covered : stream.sourceText scanner.next.lexeme.token = reading.cut.front := by
    obtain ⟨before, whole, place⟩ := stands
    rw [rest, ← List.append_assoc] at whole
    rw [next, place, ← List.length_append]
    exact TokenStream.sourceText_lexemeAt short whole
  rw [covered] at same
  refine ⟨separator, others, same, ?_⟩
  rwa [next] at after ⊢

theorem Mirrors.agrees_of_token
    {inner behind : List Char}
    {reading : Reading}
    {offset : Nat}
    (short : stream.text.length < wordCount)
    (h : Mirrors stream ⟨inner ++ behind, offset, false⟩ mirror gap text)
    (stands : Stands stream.text ⟨inner ++ behind, offset, false⟩)
    (skipped : Gap inner)
    (bare : startsGap behind = false)
    (found : read? behind = some reading) :
    Agrees stream ⟨inner ++ behind, offset, false⟩ mirror := by
  have next := (Advance.token offset skipped bare found).next_eq
  have split := congrArg (inner ++ ·) (whole_read? found).symm
  obtain ⟨separator, others, rfl, after⟩ :=
    exists_behind_ahead short stands split next (spelled_read? found) h.relaid
  have last : .unterminatedString ∈ reading.flaws → separator ++ others = [] := by
    -- nothing was left behind the string, so that no token comes after it
    intro flawed
    obtain ⟨string, nothing⟩ := back_of_unterminated found flawed
    have none : (tokenAt (offset + inner.length) reading).scanner.ahead = [] := by
      rw [tokenAt, nothing, string]
      exact ahead_of_nil _
    rw [next, none] at after
    rw [after.eq_nil.1, after.eq_nil.2]
    rfl
  obtain ⟨rest, place, code⟩ := mirror
  obtain ⟨rfl, rfl, mirrored, -, -⟩ := h
  have again := Advance.token place mirrored (startsGap_append found bare after.endsToken)
    (read?_append found after.endsToken last)
  exact agrees_of_tokenAt next again.next_eq after.gap (after.blank ∘ .inl) after.relaid

/-- What comes after assembler text begins with an `END` in every layout. -/
theorem startsWithEnd_of_followed
    (short : stream.text.length < wordCount)
    (stands : scanner.Stands stream.text)
    (plain : scanner.inCode = false)
    (follows : Followed scanner.rest)
    (relaid : stream.Relaid scanner.ahead text) :
    text = [] ∨ startsWithEnd text = true := by
  have step := advance_next scanner
  generalize next : scanner.next = found at step
  cases step with
  | @token inner behind reading offset skipped bare found =>
    have split := congrArg (inner ++ ·) (whole_read? found).symm
    obtain ⟨separator, others, rfl, after⟩ :=
      exists_behind_ahead short stands split next (spelled_read? found) relaid
    rcases (follows.blank_of_gap skipped bare).2 with rfl | ends
    · cases found
    · right
      rw [front_of_startsWithEnd ends found]
      refine startsWithEnd_iff.mpr ⟨separator ++ others, rfl, ?_⟩
      exact any_head?_of_endsToken continuesWord after.endsToken rfl
  | assembler => cases plain
  | stray =>
    rw [ahead_of_end (by rw [next]; rfl)] at relaid
    cases relaid
    exact .inl rfl
  | unclosed =>
    rw [ahead_of_end (by rw [next]; rfl)] at relaid
    cases relaid
    exact .inl rfl

theorem Mirrors.agrees_of_assembler
    {inner behind : List Char}
    {offset : Nat}
    (short : stream.text.length < wordCount)
    (h : Mirrors stream ⟨inner ++ behind, offset, true⟩ mirror gap text)
    (stands : Stands stream.text ⟨inner ++ behind, offset, true⟩)
    (blank : ∀ c ∈ inner, isBlank c = true)
    (bare : behind.head?.any isBlank = false) :
    Agrees stream ⟨inner ++ behind, offset, true⟩ mirror := by
  have next := (Advance.assembler offset blank bare).next_eq
  have split := congrArg (inner ++ ·) (whole_assemblerText behind).symm
  obtain ⟨separator, others, rfl, after⟩ :=
    exists_behind_ahead short stands split next (Reading.spelled_of_hasText rfl) h.relaid
  have blanks := after.blank (.inr rfl)
  have ends : others = [] ∨ startsWithEnd others = true := by
    refine startsWithEnd_of_followed short (steps_next stands).stands ?_ ?_ after.relaid
    · rw [next]
      rfl
    · rw [next]
      exact followed_assemblerText behind
  obtain ⟨rest, place, code⟩ := mirror
  obtain ⟨rfl, rfl, -, mirrored, -⟩ := h
  by_cases empty : (assemblerText behind).front = []
  · -- the separator comes before the empty text and not after it
    have free : others.head?.any isBlank = false :=
      (startsGap_eq_false_iff.mp (startsGap_of_startsWithEnd ends)).2
    have all : ∀ c ∈ gap ++ separator, isBlank c = true := by
      intro c member
      exact (List.mem_append.mp member).elim (mirrored rfl c) (blanks c)
    have again := (Advance.assembler place all free).next_eq
    rw [assemblerText_of_end ends, List.append_assoc] at again
    have found : Scanner.next ⟨gap ++ ((assemblerText behind).front ++ (separator ++ others)),
        place, true⟩ = tokenAt (place + (gap ++ separator).length)
          (Reading.before ⟨.assembler, assemblerText behind, []⟩ ([] ++ others)) := by
      rw [Reading.before, empty]
      exact again
    exact agrees_of_tokenAt next found .nil (by rintro ⟨⟩) after.relaid
  · have whole := whole_assemblerText behind
    obtain ⟨c, body, front⟩ := List.exists_cons_of_ne_nil empty
    have same := assemblerText_append behind blanks ends fun nothing => by
      have none := after.relaid
      rw [after.last.mp nothing] at none
      cases none
      rfl
    have head :
        ((assemblerText behind).front ++ (separator ++ others)).head?.any isBlank = false := by
      rw [← whole, Cut.whole, front] at bare
      rw [front]
      exact bare
    have again := (Advance.assembler place (mirrored rfl) head).next_eq
    rw [same] at again
    exact agrees_of_tokenAt next again after.gap (by rintro ⟨⟩) after.relaid

/-- A step over one layout is a step over the other. -/
theorem Mirrors.agrees
    (short : stream.text.length < wordCount)
    (h : Mirrors stream scanner mirror gap text)
    (stands : scanner.Stands stream.text)
    (continues : scanner.next.lexeme.symbol ≠ .endOfFile) :
    Agrees stream scanner mirror := by
  have step := advance_next scanner
  generalize scanner.next = next at step continues
  cases step with
  | token _ skipped bare found => exact h.agrees_of_token short stands skipped bare found
  | assembler _ blank bare => exact h.agrees_of_assembler short stands blank bare
  | stray => exact absurd rfl continues
  | unclosed => exact absurd rfl continues

/-- After the last token nothing is left but a gap. -/
theorem Mirrors.next_of_end
    {whole : List Char}
    (short : whole.length < wordCount)
    (h : Mirrors stream scanner mirror gap text)
    (stands : mirror.Stands whole)
    (ends : scanner.next.lexeme.symbol = .endOfFile) :
    mirror.next.lexeme = ⟨.endAt whole.length, ""⟩ := by
  have plain : scanner.inCode = false := by
    cases code : scanner.inCode with
    | false => rfl
    | true =>
      rw [next, if_pos code] at ends
      cases ends
  obtain ⟨before, rfl, place⟩ := stands
  obtain ⟨rest, offset, code⟩ := mirror
  obtain ⟨rfl, rfl, skipped, -, relaid⟩ := h
  rw [ahead_of_end ends] at relaid
  cases relaid
  have step : Scanner.next ⟨gap ++ [], offset, false⟩ = endAt [] (offset + gap.length) [] :=
    (Advance.stray offset skipped rfl rfl).next_eq
  rw [List.length_append, ← place, List.append_nil] at short
  simp only [plain, step]
  rw [List.length_append, ← place, List.append_nil, endAt, toWord_of_lt short]

/-- The lexemes of a run without their places. -/
def contents (scanner : Scanner) : List (Symbol × String) :=
  scanner.run.map fun step => (step.lexeme.symbol, step.lexeme.text)

/-- The scanner finds the same in both layouts, up to the end of the text. -/
theorem Mirrors.contents_eq
    {whole : List Char}
    (short : stream.text.length < wordCount)
    (mirrorShort : whole.length < wordCount)
    (h : Mirrors stream scanner mirror gap text)
    (stands : scanner.Stands stream.text)
    (mirrored : mirror.Stands whole) :
    mirror.contents = scanner.contents ∧
      mirror.run.getLast?.map (·.lexeme.token) = some (.endAt whole.length) := by
  fun_induction run scanner generalizing mirror gap text with
  | case1 scanner step =>
    rename_i ends
    have last := h.next_of_end mirrorShort mirrored ends
    have stops : mirror.next.lexeme.symbol = .endOfFile := by
      rw [last]
      rfl
    have silent := (steps_next stands).closes ends
    rw [contents, contents, run_of_end stops, run_of_end ends]
    refine ⟨?_, ?_⟩
    · rw [List.map_singleton, List.map_singleton, last, silent]
      rfl
    · rw [List.getLast?_singleton, Option.map_some, last]
  | case2 scanner step continues =>
    rename_i ih
    have agrees := h.agrees short stands continues
    obtain ⟨gap, text, further⟩ := agrees.mirrors
    obtain ⟨others, last⟩ := ih further (steps_next stands).stands (steps_next mirrored).stands
    have goes : mirror.next.lexeme.symbol ≠ .endOfFile := by
      rw [agrees.symbol]
      exact continues
    rw [contents, contents, run_of_token goes, run_of_token continues]
    refine ⟨?_, ?_⟩
    · rw [List.map_cons, List.map_cons, agrees.symbol, agrees.text]
      exact congrArg _ others
    · rw [List.getLast?_cons_of_ne_nil (run_ne_nil _)]
      exact last

end Scanner

namespace TokenStream

/-- Another stream has the same tokens at other places, up to the end of its text. -/
structure Repeats (stream other : TokenStream) : Prop where
  symbols : other.tokens.map (·.symbol) = stream.tokens.map (·.symbol)
  texts : other.lexemes.map (·.text) = stream.lexemes.map (·.text)
  covered : other.tokens.map other.sourceText = stream.tokens.map stream.sourceText
  last : other.tokens.getLast? = some (.endAt other.text.length)

section OfText

variable
  (name : String)
  {text : List Char}

/-- The symbol and the text of a lexeme determine what its token covers. -/
theorem sourceText_of_mem
    {lexeme : Lexeme}
    (short : text.length < wordCount)
    (member : lexeme ∈ (ofText name text).lexemes) :
    (ofText name text).sourceText lexeme.token =
      if lexeme.symbol = .endOfFile then [] else lexeme.spelling.toList := by
  by_cases ends : lexeme.symbol = .endOfFile
  · obtain ⟨front, stop, closed, inner⟩ := closed_lexemes name text
    rw [closed, List.mem_append, List.mem_singleton] at member
    rcases member with earlier | rfl
    · exact absurd ends (inner lexeme earlier)
    · rw [if_pos ends, sourceText, List.drop_take, Token.endAt, Nat.sub_self, List.take_zero]
  · rw [if_neg ends]
    exact ((lexemes_ofText name short).covers lexeme member).spelled ends

theorem symbols_ofText (text : List Char) :
    (ofText name text).tokens.map (·.symbol) = (Scanner.ofText text).contents.map (·.1) := by
  rw [tokens_ofText, Scanner.contents, List.map_map, List.map_map]
  rfl

theorem texts_ofText (text : List Char) :
    (ofText name text).lexemes.map (·.text) = (Scanner.ofText text).contents.map (·.2) := by
  rw [ofText, Scanner.contents, List.map_map, List.map_map]
  rfl

theorem covered_ofText (short : text.length < wordCount) :
    (ofText name text).tokens.map (ofText name text).sourceText =
      (Scanner.ofText text).contents.map fun content =>
        if content.1 = .endOfFile then []
        else (if content.1.hasText then content.2 else content.1.reading).toList := by
  rw [tokens_ofText, Scanner.contents, List.map_map, List.map_map]
  apply List.map_congr_left
  intro step member
  exact sourceText_of_mem name short (List.mem_map_of_mem member)

end OfText

/-- Streams repeat each other if their scanners come to the same lexemes. -/
theorem repeats_of_contents_eq
    {name other : String}
    {text again : List Char}
    (short : text.length < wordCount)
    (againShort : again.length < wordCount)
    (same : (Scanner.ofText again).contents = (Scanner.ofText text).contents)
    (last : (Scanner.ofText again).run.getLast?.map (·.lexeme.token) = some (.endAt again.length)) :
    (ofText name text).Repeats (ofText other again) := by
  refine ⟨?_, ?_, ?_, ?_⟩
  · rw [symbols_ofText, symbols_ofText, same]
  · rw [texts_ofText, texts_ofText, same]
  · rw [covered_ofText other againShort, covered_ofText name short, same]
  · rw [tokens_ofText, List.getLast?_map]
    exact last

end TokenStream

end Oberon
