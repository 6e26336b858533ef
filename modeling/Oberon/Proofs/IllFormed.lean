import Oberon.Proofs.Numerals
import Oberon.Proofs.Partition

/-!
# Ill-formed characters

What is not well-formed in a file is decoded to a replacement character, and that character is meant
to stop the scanner (`TokenStream.HaltsAt`): no token reaches beyond it, and once the scanner has
come to it, it is reported.

The scanner only stops at characters that it has to start a token with.  Numbers, words and marks
never contain the replacement character (`Scan.symbol_of_replacement_mem`), but everything that is
read up to a closing mark may: strings, character literals, assembler text and comments.  Those are
the exceptions, and there are no others (`Source.haltsAt_iff`).
-/

namespace Oberon

namespace Scan

/-- A complete comment, or one that is left open and takes up all the rest. -/
inductive IsComment : List Char → Prop
  | closed
      {inner : List Char}
      (tail : CommentTail inner) :
      IsComment ('(' :: '*' :: inner)
  | unclosed
      {text : List Char}
      (swallowed : Unterminated text) :
      IsComment text

/-- The character at an index of a piece of layout belongs to a comment. -/
def CommentAt (text : List Char) (index : Nat) : Prop :=
  ∃ front comment back, text = front ++ comment ++ back ∧ Gap front ∧ IsComment comment ∧
    front.length ≤ index ∧ index < front.length + comment.length

theorem Gap.append
    {front back : List Char}
    (first : Gap front)
    (second : Gap back) :
    Gap (front ++ back) := by
  induction first with
  | nil => exact second
  | blank skipped _ ih => exact .blank skipped ih
  | comment inner _ ih =>
    rw [List.append_assoc]
    exact .comment inner ih

namespace CommentAt

variable
  {text gap : List Char}
  {index : Nat}

theorem of_isComment
    (comment : IsComment text)
    (within : index < text.length) :
    CommentAt text index := by
  refine ⟨[], text, [], (List.append_nil text).symm, .nil, comment, Nat.zero_le _, ?_⟩
  simpa using within

/-- What follows a comment does not matter to it. -/
theorem append
    (h : CommentAt text index)
    (others : List Char) :
    CommentAt (text ++ others) index := by
  obtain ⟨front, comment, back, rfl, skipped, isComment, first, last⟩ := h
  exact ⟨front, comment, back ++ others, by rw [List.append_assoc], skipped, isComment, first, last⟩

/-- Nor does a gap in front of it. -/
theorem after
    (skipped : Gap gap)
    (h : CommentAt text index) :
    CommentAt (gap ++ text) (gap.length + index) := by
  obtain ⟨front, comment, back, rfl, before, isComment, first, last⟩ := h
  refine ⟨gap ++ front, comment, back, by simp, skipped.append before, isComment, ?_, ?_⟩
  · rw [List.length_append]
    omega
  · rw [List.length_append]
    omega

theorem lt_length
    (h : CommentAt text index) :
    index < text.length := by
  obtain ⟨front, comment, back, rfl, -, -, -, last⟩ := h
  simp only [List.length_append]
  omega

end CommentAt

/-- A character of a gap is blank or belongs to a comment. -/
theorem Gap.commentAt
    {gap : List Char}
    {index : Nat}
    {c : Char}
    (h : Gap gap)
    (found : gap[index]? = some c)
    (visible : isBlank c = false) :
    CommentAt gap index := by
  induction h generalizing index with
  | nil => cases found
  | @blank d rest skipped _ ih =>
    cases index with
    | zero =>
      cases found
      rw [visible] at skipped
      cases skipped
    | succ index =>
      rw [Nat.add_comm]
      exact .after (.blank skipped .nil : Gap [d]) (ih found)
  | @comment inner rest tail _ ih =>
    rcases Nat.lt_or_ge index ('(' :: '*' :: inner).length with inside | behind
    · exact (CommentAt.of_isComment (.closed tail) inside).append rest
    · rw [List.getElem?_append_right behind] at found
      have later := CommentAt.after (.comment tail .nil) (ih found)
      rwa [List.append_nil, Nat.add_sub_cancel' behind] at later

/-- The same of a gap and a comment that is left open. -/
theorem Gap.commentAt_append
    {gap comment : List Char}
    {index : Nat}
    {c : Char}
    (h : Gap gap)
    (swallowed : Unterminated comment)
    (found : (gap ++ comment)[index]? = some c)
    (visible : isBlank c = false) :
    CommentAt (gap ++ comment) index := by
  rcases Nat.lt_or_ge index gap.length with inside | behind
  · rw [List.getElem?_append_left inside] at found
    exact (h.commentAt found visible).append comment
  · rw [List.getElem?_append_right behind] at found
    obtain ⟨within, -⟩ := List.getElem?_eq_some_iff.mp found
    have later := CommentAt.after h (.of_isComment (.unclosed swallowed) within)
    rwa [Nat.add_sub_cancel' behind] at later

/-- Only what stands between quotes contains a replacement character. -/
theorem symbol_of_replacement_mem
    {text : List Char}
    {reading : Reading}
    (found : read? text = some reading)
    (member : Text.Utf8.replacement ∈ reading.cut.front) :
    reading.symbol = .string ∨ reading.symbol = .character := by
  cases recognized_of_read? found with
  | quoted rest _ =>
    fun_cases quoted with
    | case1 => exact .inl rfl
    | case2 body closing others back symbol =>
      simp only [symbol]
      split
      · exact .inr rfl
      · exact .inl rfl
  | escaped rest => fun_cases escapedString <;> exact .inl rfl
  | number rest _ => exact absurd (forall_mem_front_number _ _ member) (by decide)
  | @word c rest _ =>
    have continues : continuesWord Text.Utf8.replacement = true := by
      revert member
      fun_cases word (c :: rest) with
      | case1 => exact Cut.forall_mem_front_takeWhile continuesWord _ _
      | case2 => exact Cut.forall_mem_front_takeWhile continuesWord _ _
    exact absurd continues (by decide)
  | @mark _ m _ _ =>
    have free : ∀ m ∈ Mark.all, Text.Utf8.replacement ∉ m.spelling.toList := by decide +kernel
    exact absurd member (free m m.mem_all)

end Scan

namespace Scanner

open Scan

variable
  {text : List Char}
  {scanner : Scanner}
  {place : Nat}

/-- In a short text, a token that covers a replacement character is a literal between quotes or
assembler text. -/
theorem symbol_of_covers_replacement
    (short : text.length < wordCount)
    (stands : scanner.Stands text)
    (bad : text[place]? = some Text.Utf8.replacement)
    (starts : scanner.next.lexeme.token.start ≤ place)
    (stops : place < scanner.next.lexeme.token.stop) :
    scanner.next.lexeme.symbol = .string ∨ scanner.next.lexeme.symbol = .character ∨
      scanner.next.lexeme.symbol = .assembler := by
  have resumes := (steps_next stands).stands.offset_le
  obtain ⟨before, whole, offset⟩ := stands
  have step := advance_next scanner
  generalize scanner.next = next at step starts stops resumes ⊢
  cases step with
  | @token gap rest reading _ _ _ found =>
    cases offset
    rw [tokenAt, token_lexemeAt _ (Nat.lt_of_le_of_lt resumes short)] at starts stops
    simp only at starts stops
    have member : Text.Utf8.replacement ∈ reading.cut.front := by
      rw [whole, ← whole_read? found, Cut.whole, ← List.append_assoc,
        List.getElem?_append_right (by simpa using starts),
        List.getElem?_append_left (by simp only [List.length_append]; omega)] at bad
      exact List.mem_of_getElem? bad
    exact (symbol_of_replacement_mem found member).imp_right .inl
  | assembler => exact .inr (.inr rfl)
  | stray => exact absurd stops (Nat.not_lt.mpr starts)
  | unclosed => exact absurd stops (Nat.not_lt.mpr starts)

end Scanner

namespace TokenStream

open Scan

/-- A place inside of a string, a character literal or assembler text. -/
def InText (stream : TokenStream) (place : Nat) : Prop :=
  ∃ token ∈ stream.tokens,
    (token.symbol = .string ∨ token.symbol = .character ∨ token.symbol = .assembler) ∧
      token.start ≤ place ∧ place < token.stop

/-- A place inside of a comment between two tokens. -/
def InComment (stream : TokenStream) (place : Nat) : Prop :=
  ∃ pair ∈ stream.neighbours, ∃ index, place = (pair.1.map (·.stop)).getD 0 + index ∧
    CommentAt (stream.between pair.1 pair.2) index

/-- The scanner does not get past a place, and reports it when it comes there. -/
structure HaltsAt (stream : TokenStream) (place : Nat) : Prop where
  before : ∀ token ∈ stream.tokens, token.symbol ≠ .endOfFile → token.stop ≤ place
  reported : (∃ token ∈ stream.tokens, place ≤ token.stop) →
    ⟨.invalidUtf8, .endAt place⟩ ∈ stream.issues

/-- The token that a place lies in or before, together with the token in front of it. -/
theorem exists_neighbour
    {tokens : List Token}
    {previous : Option Token}
    {place : Nat}
    (ahead : (previous.map (·.stop)).getD 0 ≤ place)
    (beyond : ∃ token ∈ tokens, place < token.stop) :
    ∃ pair ∈ (previous :: tokens.map some).zip tokens,
      (pair.1.map (·.stop)).getD 0 ≤ place ∧ place < pair.2.stop := by
  induction tokens generalizing previous with
  | nil => simp at beyond
  | cons token rest ih =>
    rw [List.map_cons, List.zip_cons_cons]
    rcases Nat.lt_or_ge place token.stop with within | passed
    · exact ⟨(previous, token), List.mem_cons_self, ahead, within⟩
    · obtain ⟨other, member, later⟩ := beyond
      rcases List.mem_cons.mp member with rfl | member
      · exact absurd later (Nat.not_lt.mpr passed)
      · obtain ⟨pair, among, around⟩ := @ih (some token) passed ⟨other, member, later⟩
        exact ⟨pair, List.mem_cons_of_mem _ among, around⟩

section OfText

variable
  {name : String}
  {text : List Char}
  {place : Nat}

theorem getElem?_between
    {stream : TokenStream}
    {previous : Option Token}
    {token : Token}
    (ahead : (previous.map (·.stop)).getD 0 ≤ place)
    (before : place < token.start) :
    (stream.between previous token)[place - (previous.map (·.stop)).getD 0]? =
      stream.text[place]? := by
  rw [between, List.getElem?_drop, Nat.add_sub_cancel' ahead, List.getElem?_take_of_lt before]

/-- Every token of a stream was read from some place of the text. -/
theorem exists_of_mem_tokens
    {token : Token}
    (member : token ∈ (ofText name text).tokens) :
    ∃ scanner : Scanner, scanner.Stands text ∧ scanner.next.lexeme.token = token ∧
      ∀ issue ∈ scanner.next.issues, issue ∈ (ofText name text).issues := by
  rw [tokens_ofText] at member
  obtain ⟨step, among, rfl⟩ := List.mem_map.mp member
  obtain ⟨scanner, stands, rfl⟩ := Scanner.exists_of_mem_run (Scanner.stands_ofText text) among
  refine ⟨scanner, stands, rfl, ?_⟩
  intro issue noticed
  exact List.mem_flatMap.mpr ⟨scanner.next, among, noticed⟩

variable (short : text.length < wordCount)

include short

theorem start_le_stop
    {token : Token}
    (member : token ∈ (ofText name text).tokens) :
    token.start ≤ token.stop := by
  obtain ⟨lexeme, listed, rfl⟩ := List.mem_map.mp member
  exact ((lexemes_ofText name short).covers lexeme listed).ordered

/-- The scanner passes a replacement character only inside of a literal, assembler text or a
comment. -/
theorem hidden_of_lt
    (bad : text[place]? = some Text.Utf8.replacement)
    (passed : ∃ token ∈ (ofText name text).tokens, place < token.stop) :
    (ofText name text).InText place ∨ (ofText name text).InComment place := by
  obtain ⟨⟨previous, token⟩, among, ahead, within⟩ :=
    @exists_neighbour _ none place (Nat.zero_le place) passed
  obtain ⟨-, member⟩ := List.of_mem_zip among
  rcases Nat.lt_or_ge place token.start with before | starts
  · refine .inr ⟨(previous, token), among, place - (previous.map (·.stop)).getD 0, ?_, ?_⟩
    · exact (Nat.add_sub_cancel' ahead).symm
    have found : ((ofText name text).between previous token)[
        place - (previous.map (·.stop)).getD 0]? = some Text.Utf8.replacement := by
      rw [getElem?_between ahead before]
      exact bad
    -- a replacement character is not blank, so that the gap has it in a comment
    have separated := separated_ofText name short _ among
    by_cases ends : token.symbol = .endOfFile
    · rcases separated.last ends with skipped | ⟨gap, comment, same, skipped, swallowed, -⟩
      · exact skipped.commentAt found rfl
      · rw [same] at found ⊢
        exact skipped.commentAt_append swallowed found rfl
    · exact (separated.gap ends).commentAt found rfl
  · obtain ⟨scanner, stands, rfl, -⟩ := exists_of_mem_tokens member
    exact .inl ⟨_, member, Scanner.symbol_of_covers_replacement short stands bad starts within,
      starts, within⟩

/-- What is inside of a literal, assembler text or a comment is passed. -/
theorem exists_lt_of_hidden
    (hidden : (ofText name text).InText place ∨ (ofText name text).InComment place) :
    ∃ token ∈ (ofText name text).tokens, place < token.stop := by
  rcases hidden with ⟨token, member, -, -, within⟩ | ⟨⟨previous, token⟩, among, index, rfl, inside⟩
  · exact ⟨token, member, within⟩
  · obtain ⟨-, member⟩ := List.of_mem_zip among
    refine ⟨token, member, Nat.lt_of_lt_of_le ?_ (start_le_stop short member)⟩
    have bound := inside.lt_length
    simp only [between, List.length_drop, List.length_take] at bound ⊢
    omega

/-- Ill-formed text is reported where the file ends before a replacement character. -/
theorem invalidUtf8_mem_issues_iff :
    ⟨.invalidUtf8, .endAt place⟩ ∈ (ofText name text).issues ↔
      .endAt place ∈ (ofText name text).tokens ∧ text[place]? = some Text.Utf8.replacement := by
  constructor
  · intro reported
    obtain ⟨scanner, stands, noticed, listed⟩ := exists_of_mem_issues reported
    by_cases ends : scanner.next.lexeme.symbol = .endOfFile
    · obtain ⟨stop, flaw, ending, token, issues⟩ := Scanner.ending_next short stands ends
      rw [issues] at noticed
      obtain ⟨flaw, rfl, located⟩ := Option.map_eq_some_iff.mp (Option.mem_toList.mp noticed)
      cases located
      obtain ⟨c, found, kind⟩ := ending.exists_of_truncates rfl
      exact ⟨token ▸ listed, kind.mp rfl ▸ found⟩
    · obtain ⟨goesOn, -⟩ := Scanner.issue_of_token short stands ends noticed
      cases goesOn
  · rintro ⟨member, bad⟩
    obtain ⟨scanner, stands, token, reported⟩ := exists_of_mem_tokens member
    have ends : scanner.next.lexeme.symbol = .endOfFile := congrArg Token.symbol token
    obtain ⟨stop, flaw, ending, same, issues⟩ := Scanner.ending_next short stands ends
    cases token.symm.trans same
    rw [issues] at reported
    cases ending with
    | complete => simp at bad
    | unclosed => simp at bad
    | stray found =>
      cases bad.symm.trans found
      exact reported _ (List.mem_singleton_self _)

/-- The end of the file comes last, and comes once. -/
theorem exists_endAt :
    ∃ stop, .endAt stop ∈ (ofText name text).tokens ∧
      (∀ token ∈ (ofText name text).tokens, token.stop ≤ stop) ∧
      ∀ other, .endAt other ∈ (ofText name text).tokens → other = stop := by
  obtain ⟨front, stop, closed, inner, -⟩ := closed_ofText name short
  have apart : (ofText name text).tokens.Pairwise fun earlier later =>
      earlier.stop ≤ later.start := List.pairwise_map.mpr (lexemes_ofText name short).ordered
  rw [closed] at apart ⊢
  obtain ⟨-, -, before⟩ := List.pairwise_append.mp apart
  refine ⟨stop, List.mem_append_right _ (List.mem_singleton_self _), ?_, ?_⟩
  · intro token member
    rcases List.mem_append.mp member with earlier | same
    · exact before token earlier _ (List.mem_singleton_self _)
    · rw [List.mem_singleton.mp same]
      exact Nat.le_refl stop
  · intro other member
    rcases List.mem_append.mp member with earlier | same
    · exact absurd rfl (inner _ earlier)
    · exact congrArg Token.start (List.mem_singleton.mp same)

/-- To halt at a replacement character is not to pass it. -/
theorem haltsAt_iff_forall
    (bad : text[place]? = some Text.Utf8.replacement) :
    (ofText name text).HaltsAt place ↔
      ∀ token ∈ (ofText name text).tokens, token.stop ≤ place := by
  obtain ⟨stop, last, ordered, unique⟩ := @exists_endAt name text short
  constructor
  · intro halts token member
    by_cases ends : token.symbol = .endOfFile
    · refine Nat.le_of_not_lt fun passed => ?_
      have reported := halts.reported ⟨token, member, Nat.le_of_lt passed⟩
      have same := unique place ((invalidUtf8_mem_issues_iff short).mp reported).1
      exact absurd (ordered token member) (by omega)
    · exact halts.before token member ends
  · intro stops
    refine ⟨fun token member _ => stops token member, ?_⟩
    rintro ⟨token, member, reached⟩
    have same : stop = place :=
      Nat.le_antisymm (stops _ last) (Nat.le_trans reached (ordered token member))
    rw [same] at last
    exact (invalidUtf8_mem_issues_iff short).mpr ⟨last, bad⟩

end OfText

end TokenStream

/-- The scanner halts at a replacement character exactly if that is neither inside of a literal
between quotes or of assembler text, nor inside of a comment.  All places in the source must be
offsets. -/
theorem Source.haltsAt_iff
    {source : Source}
    {place : Nat}
    (short : source.text.length < wordCount)
    (illFormed : source.text[place]? = some Text.Utf8.replacement) :
    (TokenStream.ofSource source).HaltsAt place ↔
      ¬ (TokenStream.ofSource source).InText place ∧
        ¬ (TokenStream.ofSource source).InComment place := by
  rw [← not_or]
  refine (TokenStream.haltsAt_iff_forall short illFormed).trans ?_
  constructor
  · intro stops hidden
    obtain ⟨token, member, passed⟩ := TokenStream.exists_lt_of_hidden short hidden
    exact absurd passed (Nat.not_lt.mpr (stops token member))
  · intro visible token member
    refine Nat.le_of_not_lt fun passed => ?_
    exact visible (TokenStream.hidden_of_lt short illFormed ⟨token, member, passed⟩)

/-- The theorem applies to a string, to a comment and to a character between tokens: the scanner
halts at the last of them only. -/
theorem Source.haltsAt_iff_three :
    ¬ (TokenStream.ofSource (.ofText "M" "x \"\uFFFD\" (*\uFFFD*) \uFFFD")).HaltsAt 3 ∧
      ¬ (TokenStream.ofSource (.ofText "M" "x \"\uFFFD\" (*\uFFFD*) \uFFFD")).HaltsAt 8 ∧
      (TokenStream.ofSource (.ofText "M" "x \"\uFFFD\" (*\uFFFD*) \uFFFD")).HaltsAt 12 ∧
      ¬ (TokenStream.ofSource (.ofText "M" "x \"\uFFFD\" (*\uFFFD*) \uFFFD")).InComment 12 := by
  have string : (TokenStream.ofSource (.ofText "M" "x \"\uFFFD\" (*\uFFFD*) \uFFFD")).InText 3 :=
    ⟨⟨.string, 2, 5⟩, by decide +kernel, .inl rfl, by decide, by decide⟩
  have comment :
      (TokenStream.ofSource (.ofText "M" "x \"\uFFFD\" (*\uFFFD*) \uFFFD")).InComment 8 := by
    refine ⟨(some ⟨.string, 2, 5⟩, .endAt 12), by decide +kernel, 3, rfl, ?_⟩
    refine ⟨[' '], ['(', '*', '\uFFFD', '*', ')'], [' '], by decide +kernel, ?_, ?_, ?_⟩
    · exact .blank rfl .nil
    · exact .closed (.plain rfl .closing)
    · decide
  have halts : (TokenStream.ofSource (.ofText "M" "x \"\uFFFD\" (*\uFFFD*) \uFFFD")).HaltsAt 12 :=
    ⟨by decide +kernel, fun _ => by decide +kernel⟩
  have short : (Source.ofText "M" "x \"\uFFFD\" (*\uFFFD*) \uFFFD").text.length < wordCount := by
    decide +kernel
  refine ⟨?_, ?_, halts, ?_⟩
  · intro other
    exact ((Source.haltsAt_iff short (by decide +kernel)).mp other).1 string
  · intro other
    exact ((Source.haltsAt_iff short (by decide +kernel)).mp other).2 comment
  · exact ((Source.haltsAt_iff short (by decide +kernel)).mp halts).2

end Oberon
