import Oberon.Proofs.Recognition

/-!
# Tokens partition the text

The tokens of a source stand in order, and between two of them there is nothing but a gap
(`TokenStream.Partitioned`).  Next to assembler text the gap consists of blanks, and the last gap
may end in an unterminated comment, which then is reported.  Gaps and tokens put together are the
text up to the end of the file (`Source.tokens_partition`).

Each token is looked at together with the token before it, if there is one.  What a step of the
scanner skips is the gap before its token (`Scanner.separated_next`); assembler text leaves the
scanner before blanks and an `END`, or before nothing at all (`Scan.Followed`).
-/

namespace Oberon

namespace Scan

/-- Blanks, and then an `END` or nothing. -/
def Followed (text : List Char) : Prop :=
  ∃ blanks rest, text = blanks ++ rest ∧ (∀ c ∈ blanks, isBlank c = true) ∧
    (rest = [] ∨ startsWithEnd rest = true)

theorem startsGap_of_startsWithEnd
    {text : List Char}
    (h : text = [] ∨ startsWithEnd text = true) :
    startsGap text = false := by
  rcases h with rfl | h
  · rfl
  · unfold startsWithEnd at h
    split at h
    · rfl
    · cases h

theorem back_beforeEnd
    (boundary : Bool)
    (text : List Char) :
    (beforeEnd boundary text).back = [] ∨
      startsWithEnd (beforeEnd boundary text).back = true := by
  fun_induction beforeEnd boundary text with
  | case1 => exact .inl rfl
  | case2 boundary c rest found => exact .inr (Bool.and_eq_true_iff.mp found).2
  | case3 boundary c rest _ ih => exact ih

/-- Assembler text stops before an `END`, with or without blanks between them. -/
theorem followed_assemblerText
    (text : List Char) :
    Followed (assemblerText text).back := by
  refine ⟨((beforeEnd true text).front.reverse.takeWhile isBlank).reverse,
    (beforeEnd true text).back, rfl, ?_, back_beforeEnd true text⟩
  intro c member
  exact List.all_eq_true.mp List.all_takeWhile c (List.mem_reverse.mp member)

theorem symbol_read?_ne_assembler
    {text : List Char}
    {reading : Reading}
    (h : read? text = some reading) :
    reading.symbol ≠ .assembler := by
  cases recognized_of_read? h with
  | quoted rest _ =>
    fun_cases quoted with
    | case1 => rintro ⟨⟩
    | case2 body closing others back symbol =>
      simp only [symbol]
      split <;> rintro ⟨⟩
  | escaped rest => fun_cases escapedString <;> rintro ⟨⟩
  | @number c rest _ =>
    intro same
    have kind := symbol_number (c :: rest)
    simp [same] at kind
  | word rest _ => fun_cases word <;> rintro ⟨⟩
  | mark _ _ => rintro ⟨⟩

/-- The blanks before an `END` are all that is skipped. -/
theorem Followed.blank_of_gap
    {gap text : List Char}
    (h : Followed (gap ++ text))
    (skipped : Gap gap)
    (bare : startsGap text = false) :
    (∀ c ∈ gap, isBlank c = true) ∧ (text = [] ∨ startsWithEnd text = true) := by
  obtain ⟨blanks, rest, whole, blank, ends⟩ := h
  have first : layout (gap ++ text) = ⟨⟨gap, text⟩, true⟩ := by
    rw [skipped.layout_append, layout_of_not_startsGap bare]
    simp [Verdict.after, Cut.after, Cut.start]
  have second : layout (gap ++ text) = ⟨⟨blanks, rest⟩, true⟩ := by
    rw [whole, (Gap.of_blanks blank).layout_append,
      layout_of_not_startsGap (startsGap_of_startsWithEnd ends)]
    simp [Verdict.after, Cut.after, Cut.start]
  cases first.symm.trans second
  exact ⟨blank, ends⟩

theorem Followed.not_unterminated
    {gap comment : List Char}
    (h : Followed (gap ++ comment))
    (skipped : Gap gap) :
    ¬ Unterminated comment := by
  intro swallowed
  obtain ⟨blanks, rest, whole, blank, ends⟩ := h
  have first : (layout (gap ++ comment)).valid = false := by
    rw [skipped.layout_append, swallowed.layout_eq]
    rfl
  rw [whole, (Gap.of_blanks blank).layout_append,
    layout_of_not_startsGap (startsGap_of_startsWithEnd ends)] at first
  cases first

end Scan

namespace TokenStream

open Scan

/-- The characters between a token and the one before it, or the beginning of the text. -/
def between (stream : TokenStream) (previous : Option Token) (token : Token) : List Char :=
  (stream.text.take token.start).drop ((previous.map (·.stop)).getD 0)

/-- The tokens, each with the one before it. -/
def neighbours (stream : TokenStream) : List (Option Token × Token) :=
  (none :: stream.tokens.map some).zip stream.tokens

/-- What stands between a token and the one before it. -/
structure Separated (stream : TokenStream) (previous : Option Token) (token : Token) : Prop where
  gap : token.symbol ≠ .endOfFile → Gap (stream.between previous token)
  last : token.symbol = .endOfFile →
    Gap (stream.between previous token) ∨
      ∃ gap comment, stream.between previous token = gap ++ comment ∧ Gap gap ∧
        Unterminated comment ∧ token.start = stream.text.length ∧
          ⟨.unterminatedComment, token⟩ ∈ stream.issues
  blank : token.symbol = .assembler ∨ previous.any (·.symbol == .assembler) = true →
    ∀ c ∈ stream.between previous token, isBlank c = true

/-- The tokens and the gaps between them make up the text. -/
structure Partitioned (stream : TokenStream) : Prop where
  ordered : ∀ token ∈ stream.tokens, token.start ≤ token.stop ∧ token.stop ≤ stream.text.length
  apart : stream.tokens.Pairwise fun earlier later => earlier.stop ≤ later.start
  closed : ∃ front stop, stream.tokens = front ++ [.endAt stop] ∧
    (∀ token ∈ front, token.symbol ≠ .endOfFile) ∧
    -- gaps and tokens together are the text up to there
    (stream.neighbours.flatMap fun pair =>
      stream.between pair.1 pair.2 ++ stream.sourceText pair.2) = stream.text.take stop
  separated : ∀ pair ∈ stream.neighbours, stream.Separated pair.1 pair.2
  texts : ∀ index, stream.lexemeText index =
    match stream.token? index with
    | some token =>
      if token.symbol.hasText then String.ofList (stream.sourceText token) else ""
    | none => ""

theorem between_eq
    {stream : TokenStream}
    {previous : Option Token}
    {before gap rest : List Char}
    (token : Token)
    (short : stream.text.length < wordCount)
    (whole : stream.text = before ++ (gap ++ rest))
    (reached : (previous.map (·.stop)).getD 0 = before.length)
    (start : token.start = toWord (before.length + gap.length)) :
    stream.between previous token = gap := by
  rw [← List.append_assoc] at whole
  have within : (before ++ gap).length < wordCount := by
    rw [whole, List.length_append] at short
    omega
  rw [between, whole, reached, start, ← List.length_append, toWord_of_lt within, List.take_left,
    List.drop_left]

end TokenStream

namespace Scanner

open Scan TokenStream

variable
  {stream : TokenStream}
  {previous : Option Token}
  {scanner : Scanner}

/-- What a step skips stands between its token and the one before it. -/
theorem separated_next
    (short : stream.text.length < wordCount)
    (stands : scanner.Stands stream.text)
    (reached : (previous.map (·.stop)).getD 0 = scanner.offset)
    (follows : previous.any (·.symbol == .assembler) = true → Followed scanner.rest)
    (reported : ∀ issue ∈ scanner.next.issues, issue ∈ stream.issues) :
    stream.Separated previous scanner.next.lexeme.token := by
  obtain ⟨before, whole, offset⟩ := stands
  have step := advance_next scanner
  generalize scanner.next = next at step reported ⊢
  cases step with
  | @token gap text reading _ skipped bare found =>
    cases offset
    have gap := between_eq (tokenAt _ reading).lexeme.token short whole reached rfl
    refine ⟨?_, ?_, ?_⟩
    · intro _
      rwa [gap]
    · intro ends
      exact absurd ends (spelled_read? found).token
    · rintro (assembler | before)
      · exact absurd assembler (symbol_read?_ne_assembler found)
      · rw [gap]
        exact ((follows before).blank_of_gap skipped bare).1
  | @assembler gap text _ blank bare =>
    cases offset
    have gap := between_eq (tokenAt _ ⟨.assembler, assemblerText text, []⟩).lexeme.token
      short whole reached rfl
    rw [← gap] at blank
    refine ⟨?_, nofun, ?_⟩
    · intro _
      exact .of_blanks blank
    · intro _
      exact blank
  | @stray gap text _ skipped bare unknown =>
    cases offset
    have gap := between_eq (endAt (strayFlaws text) (before.length + gap.length) text).lexeme.token
      short whole reached rfl
    refine ⟨?_, ?_, ?_⟩
    · intro inner
      exact absurd rfl inner
    · intro _
      rw [← gap] at skipped
      exact .inl skipped
    · rintro (assembler | before)
      · cases assembler
      · have blank := ((follows before).blank_of_gap skipped bare).1
        rwa [← gap] at blank
  | @unclosed gap comment _ skipped swallowed =>
    cases offset
    rw [← List.append_nil (gap ++ comment)] at whole
    have gap' := between_eq
      (endAt [.unterminatedComment] (before.length + (gap ++ comment).length) []).lexeme.token
      short whole reached rfl
    refine ⟨?_, ?_, ?_⟩
    · intro inner
      exact absurd rfl inner
    · intro _
      refine .inr ⟨gap, comment, gap', skipped, swallowed, ?_,
        reported _ (List.mem_singleton_self _)⟩
      have size := congrArg List.length whole
      rw [List.append_nil, List.length_append] at size
      exact (toWord_of_lt (size ▸ short)).trans size.symm
    · rintro (assembler | before)
      · cases assembler
      · exact absurd swallowed ((follows before).not_unterminated skipped)

/-- After assembler text the scanner stands before blanks and an `END`. -/
theorem followed_next
    (assembler : scanner.next.lexeme.symbol = .assembler) :
    Followed scanner.next.scanner.rest := by
  have step := advance_next scanner
  generalize scanner.next = next at step assembler ⊢
  cases step with
  | token _ _ _ found => exact absurd assembler (symbol_read?_ne_assembler found)
  | assembler => exact followed_assemblerText _
  | stray => cases assembler
  | unclosed => cases assembler

theorem separated_run
    (short : stream.text.length < wordCount)
    (stands : scanner.Stands stream.text)
    (reached : (previous.map (·.stop)).getD 0 = scanner.offset)
    (follows : previous.any (·.symbol == .assembler) = true → Followed scanner.rest)
    (reported : ∀ step ∈ scanner.run, ∀ issue ∈ step.issues, issue ∈ stream.issues) :
    ∀ pair ∈ (previous :: (scanner.run.map (·.lexeme.token)).map some).zip
      (scanner.run.map (·.lexeme.token)), stream.Separated pair.1 pair.2 := by
  fun_induction run scanner generalizing previous with
  | case1 scanner next =>
    intro pair member
    have own := separated_next short stands reached follows (reported _ (List.mem_singleton_self _))
    rw [List.map_singleton, List.zip_cons_cons, List.zip_nil_right, List.mem_singleton] at member
    rwa [member]
  | case2 scanner next continues =>
    rename_i ih
    intro pair member
    have own := separated_next short stands reached follows (reported _ List.mem_cons_self)
    rw [List.map_cons, List.map_cons, List.zip_cons_cons, List.mem_cons] at member
    rcases member with rfl | later
    · exact own
    · have resumed : ((some next.lexeme.token).map (·.stop)).getD 0 = next.scanner.offset :=
        ((steps_next stands).resumes short).symm
      refine ih (steps_next stands).stands resumed ?_ ?_ pair later
      · intro assembler
        exact followed_next (beq_iff_eq.mp assembler)
      · intro step among
        exact reported step (List.mem_cons_of_mem _ among)

/-- Tokens whose symbol has no text have none. -/
theorem text_next
    (plain : scanner.next.lexeme.symbol.hasText = false) :
    scanner.next.lexeme.text = "" := by
  have step := advance_next scanner
  generalize scanner.next = next at step plain ⊢
  cases step with
  | token => exact if_neg (by simp_all [tokenAt, lexemeAt, Lexeme.symbol])
  | assembler => cases plain
  | stray => rfl
  | unclosed => rfl

end Scanner

/-- Two pieces of a text that meet are one piece. -/
theorem drop_take_append_drop_take
    {first middle last : Nat}
    (before : first ≤ middle)
    (after : middle ≤ last)
    (text : List Char) :
    (text.take middle).drop first ++ (text.take last).drop middle =
      (text.take last).drop first := by
  have shift : text.drop middle = (text.drop first).drop (middle - first) := by
    rw [List.drop_drop, Nat.add_sub_cancel' before]
  have size : last - first = (middle - first) + (last - middle) := by omega
  rw [List.drop_take, List.drop_take, List.drop_take, shift, size, List.take_add]

namespace TokenStream

/-- Tokens in order and what stands between them are a piece of the text. -/
theorem flatMap_between
    (stream : TokenStream)
    (tokens : List Token)
    (previous : Option Token)
    (each : ∀ token ∈ tokens, token.start ≤ token.stop)
    (apart : tokens.Pairwise fun earlier later => earlier.stop ≤ later.start)
    (ahead : ∀ token ∈ tokens, (previous.map (·.stop)).getD 0 ≤ token.start) :
    (((previous :: tokens.map some).zip tokens).flatMap fun pair =>
      stream.between pair.1 pair.2 ++ stream.sourceText pair.2) =
        (stream.text.take (((tokens.getLast?.or previous).map (·.stop)).getD 0)).drop
          ((previous.map (·.stop)).getD 0) := by
  induction tokens generalizing previous with
  | nil => simp
  | cons token rest ih =>
    rw [List.pairwise_cons] at apart
    have start := ahead token List.mem_cons_self
    have width := each token List.mem_cons_self
    have others := ih (some token) (fun later member => each later (List.mem_cons_of_mem _ member))
      apart.2 apart.1
    have stop : token.stop ≤ (((rest.getLast?.or (some token)).map (·.stop)).getD 0) := by
      cases last : rest.getLast? with
      | none => exact Nat.le_refl _
      | some final =>
        have member := List.mem_of_getLast? last
        exact Nat.le_trans (apart.1 final member) (each final (List.mem_cons_of_mem _ member))
    have same : (token :: rest).getLast?.or previous = rest.getLast?.or (some token) := by
      rw [List.getLast?_cons]
      cases rest.getLast? <;> rfl
    rw [List.map_cons, List.zip_cons_cons, List.flatMap_cons, others, between, sourceText,
      drop_take_append_drop_take start width, same]
    exact drop_take_append_drop_take (Nat.le_trans start width) stop _

section OfText

variable
  (name : String)
  {text : List Char}

/-- The last token ends the file, and the text up to there is gaps and tokens. -/
theorem closed_ofText (short : text.length < wordCount) :
    ∃ front stop, (ofText name text).tokens = front ++ [.endAt stop] ∧
      (∀ token ∈ front, token.symbol ≠ .endOfFile) ∧
      ((ofText name text).neighbours.flatMap fun pair =>
        (ofText name text).between pair.1 pair.2 ++ (ofText name text).sourceText pair.2) =
          text.take stop := by
  have lexemes := lexemes_ofText name short
  obtain ⟨front, stop, closed, inner⟩ := closed_lexemes name text
  have tokens : (ofText name text).tokens = front.map (·.token) ++ [.endAt stop] := by
    rw [TokenStream.tokens, closed, List.map_append]
    rfl
  refine ⟨front.map (·.token), stop, tokens, ?_, ?_⟩
  · intro token member
    obtain ⟨lexeme, listed, rfl⟩ := List.mem_map.mp member
    exact inner lexeme listed
  · rw [neighbours, flatMap_between]
    · rw [tokens, List.getLast?_concat]
      rfl
    · intro token member
      obtain ⟨lexeme, listed, rfl⟩ := List.mem_map.mp member
      exact (lexemes.covers lexeme listed).ordered
    · exact List.pairwise_map.mpr lexemes.ordered
    · intro token _
      exact Nat.zero_le _

theorem tokens_ofText (text : List Char) :
    (ofText name text).tokens = (Scanner.ofText text).run.map (·.lexeme.token) :=
  List.map_map

theorem separated_ofText (short : text.length < wordCount) :
    ∀ pair ∈ (ofText name text).neighbours, (ofText name text).Separated pair.1 pair.2 := by
  rw [neighbours, tokens_ofText]
  refine Scanner.separated_run short (Scanner.stands_ofText text) rfl nofun ?_
  intro step member issue noticed
  exact List.mem_flatMap.mpr ⟨step, member, noticed⟩

/-- The lexemes have the characters of their token if their symbol has a text. -/
theorem lexemeText_ofText
    (short : text.length < wordCount)
    (index : Nat) :
    (ofText name text).lexemeText index =
      match (ofText name text).token? index with
      | some token =>
        if token.symbol.hasText then String.ofList ((ofText name text).sourceText token) else ""
      | none => "" := by
  rw [lexemeText, token?]
  cases found : (ofText name text).lexemes[index]? with
  | none => rfl
  | some lexeme =>
    have member := List.mem_of_getElem? found
    simp only [Option.map_some, Option.getD_some]
    split
    · have hasText : lexeme.symbol.hasText = true := ‹_›
      have covered := ((lexemes_ofText name short).covers lexeme member).spelled ?_
      · rw [sourceText, ofText, covered, Lexeme.spelling, if_pos hasText, String.ofList_toList]
      · intro ends
        rw [ends] at hasText
        cases hasText
    · rename_i plain
      obtain ⟨step, among, rfl⟩ := List.mem_map.mp member
      obtain ⟨place, -, rfl⟩ := Scanner.exists_of_mem_run (Scanner.stands_ofText text) among
      exact Scanner.text_next ((Bool.not_eq_true _).mp plain)

end OfText

end TokenStream

/-- The tokens of a source partition its text, if all its places are offsets: nothing but gaps
stands between them, gaps and tokens together are the text up to the end of the file, and texts are
kept for the symbols that have one.  Once the scanner has come to the end of the file, it stays
there. -/
theorem Source.tokens_partition (source : Source) :
    (source.text.length < wordCount → (TokenStream.ofSource source).Partitioned) ∧
      ∀ first later, first ≤ later →
        ((Scanner.ofText source.text).skip first).next.lexeme.symbol = .endOfFile →
        ((Scanner.ofText source.text).skip later).next.lexeme =
          ((Scanner.ofText source.text).skip first).next.lexeme := by
  refine ⟨fun short => ?_, ?_⟩
  · have lexemes := TokenStream.lexemes_ofText source.name short
    refine ⟨?_, ?_, ?_, ?_, ?_⟩
    · intro token member
      obtain ⟨lexeme, listed, rfl⟩ := List.mem_map.mp member
      exact ⟨(lexemes.covers lexeme listed).ordered, (lexemes.covers lexeme listed).within⟩
    · exact List.pairwise_map.mpr lexemes.ordered
    · exact TokenStream.closed_ofText _ short
    · exact TokenStream.separated_ofText _ short
    · exact TokenStream.lexemeText_ofText _ short
  · intro first later order ends
    exact Scanner.lexeme_skip_of_end order ends

/-- The theorem applies to assembler text and a comment that is left open: the end of the file comes
after three tokens, and again after that. -/
theorem Source.tokens_partition_open :
    (TokenStream.ofSource (.ofText "M" "CODE mov END (*")).Partitioned ∧
      ((Scanner.ofText (Source.ofText "M" "CODE mov END (*").text).skip 3).next.lexeme =
        ⟨.endAt 15, ""⟩ ∧
      ((Scanner.ofText (Source.ofText "M" "CODE mov END (*").text).skip 8).next.lexeme =
        ⟨.endAt 15, ""⟩ := by
  have last : ((Scanner.ofText (Source.ofText "M" "CODE mov END (*").text).skip 3).next.lexeme =
      ⟨.endAt 15, ""⟩ := by
    decide +kernel
  obtain ⟨parts, stays⟩ := Source.tokens_partition (.ofText "M" "CODE mov END (*")
  refine ⟨parts (by decide +kernel), last, ?_⟩
  rw [stays 3 8 (by decide) (by rw [last]; rfl), last]

namespace TokenStream

open Scan Scanner

/-- A name behind blanks.  Its token has the offsets that its places are cut down to. -/
theorem lexemes_ofText_blanks
    (name : String)
    (count : Nat) :
    (ofText name (List.replicate count ' ' ++ ['x'])).lexemes =
      [⟨⟨.ident, toWord count, toWord (count + 1)⟩, "x"⟩, ⟨.endAt (toWord (count + 1)), ""⟩] := by
  have blanks : Gap (List.replicate count ' ') :=
    .of_blanks fun c member => (List.eq_of_mem_replicate member).symm ▸ rfl
  have found : read? ['x'] = some ⟨.ident, ⟨['x'], []⟩, []⟩ := rfl
  have first : (⟨List.replicate count ' ' ++ ['x'], 0, false⟩ : Scanner).next =
      ⟨⟨⟨.ident, toWord count, toWord (count + 1)⟩, "x"⟩, [], ⟨[], count + 1, false⟩⟩ := by
    rw [(Advance.token 0 blanks rfl found).next_eq, Nat.zero_add, List.length_replicate]
    rfl
  have second : (⟨[], count + 1, false⟩ : Scanner).next = endAt [] (count + 1) [] :=
    (Advance.stray (count + 1) .nil rfl rfl).next_eq
  rw [ofText, Scanner.ofText, run_of_token (by rw [first]; exact nofun), first,
    run_of_end (by rw [second]; rfl), second]
  rfl

/-- The bound on the length of a text is sharp: behind as many blanks as there are offsets, the
token of a name covers the first blank. -/
theorem not_partitioned_of_blanks (name : String) :
    ¬ (ofText name (List.replicate wordCount ' ' ++ ['x'])).Partitioned := by
  intro parts
  have lexemes := lexemes_ofText_blanks name wordCount
  have text := parts.texts 0
  rw [lexemeText, token?, lexemes] at text
  have covered : (ofText name (List.replicate wordCount ' ' ++ ['x'])).sourceText
      ⟨.ident, 0, 1⟩ = [' '] :=
    rfl
  exact absurd (text.trans (congrArg String.ofList covered)) (by decide)

end TokenStream

end Oberon
