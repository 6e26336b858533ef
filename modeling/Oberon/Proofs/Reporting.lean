import Oberon.Proofs.Locations
import Oberon.Proofs.Relayout

/-!
# Lexical issues are reported in order

Scanning ends in one of three ways (`Scanner.Ending`): at the end of the text, at the end of the
text with a comment left open, or before a character that starts no token.  Every way but the first
is reported, and the text is cut off in the last one only.

Before that, tokens are found.  A token may be malformed or left open, which is reported once, at
its first character, and does not stop the scanner (`Scanner.issue_of_token`).  Since tokens that
are reported are not empty and none starts before an earlier one ends, the issues come in the order
of the text, as long as all of its places are offsets (`Source.issues_reported`).
-/

namespace Oberon

namespace Flaw

/-- True of the flaws that cut the text off. -/
def truncates : Flaw → Bool
  | unknownCharacter | invalidUtf8 => true
  | unterminatedComment | unterminatedString | malformedNumber => false

/-- True of the flaws after which no token comes. -/
def ends : Flaw → Bool
  | unknownCharacter | invalidUtf8 | unterminatedComment => true
  | unterminatedString | malformedNumber => false

theorem truncates_of_not_ends
    {flaw : Flaw}
    (h : flaw.ends = false) :
    flaw.truncates = false := by
  cases flaw <;> first | rfl | cases h

end Flaw

namespace Scan

/-- At most one thing is wrong with a token, and it does not stop the scanner. -/
structure Reading.Mild (reading : Reading) : Prop where
  single : reading.flaws.length ≤ 1
  goesOn : ∀ flaw ∈ reading.flaws, flaw.ends = false

theorem Reading.Mild.of_flawless
    {reading : Reading}
    (h : reading.flaws = []) :
    reading.Mild := by
  refine ⟨?_, ?_⟩
  · rw [h]
    exact Nat.zero_le _
  · rw [h]
    exact List.forall_mem_nil _

theorem Reading.Mild.of_single
    {reading : Reading}
    {flaw : Flaw}
    (h : reading.flaws = [flaw])
    (goesOn : flaw.ends = false) :
    reading.Mild := by
  refine ⟨?_, ?_⟩
  · rw [h]
    exact Nat.le_refl _
  · rw [h]
    exact List.forall_mem_singleton.mpr goesOn

theorem mild_number (text : List Char) : (number text).Mild := by
  obtain ⟨symbol, cut, valid, same⟩ := exists_numeral text
  rw [same]
  cases valid with
  | true => exact .of_flawless rfl
  | false => exact .of_single rfl rfl

theorem mild_read?
    {text : List Char}
    {reading : Reading}
    (found : read? text = some reading) :
    reading.Mild := by
  cases recognized_of_read? found with
  | @quoted delimiter rest _ =>
    fun_cases quoted delimiter rest with
    | case1 => exact .of_single rfl rfl
    | case2 => exact .of_flawless rfl
  | escaped rest =>
    fun_cases escapedString rest with
    | case1 => exact .of_flawless rfl
    | case2 => exact .of_single rfl rfl
  | number => exact mild_number _
  | @word c rest _ => fun_cases word (c :: rest) <;> exact .of_flawless rfl
  | mark _ _ => exact .of_flawless rfl

end Scan

namespace Scanner

open Scan

/-- The ways in which scanning a text can end: at which offset, and with which flaw. -/
inductive Ending (text : List Char) : Nat → Option Flaw → Prop
  | complete :
      Ending text text.length none
  | unclosed :
      Ending text text.length (some .unterminatedComment)
  | stray
      {stop : Nat}
      {c : Char}
      (found : text[stop]? = some c) :
      Ending text stop
        (some (if c = Text.Utf8.replacement then .invalidUtf8 else .unknownCharacter))

namespace Ending

variable
  {text : List Char}
  {stop : Nat}
  {flaw : Option Flaw}

/-- The text is cut off if and only if the flaw says so. -/
theorem lt_length_iff
    (h : Ending text stop flaw) :
    stop < text.length ↔ flaw.any Flaw.truncates = true := by
  cases h with
  | complete => simp
  | unclosed => simp [Flaw.truncates]
  | @stray _ c found =>
    obtain ⟨within, -⟩ := List.getElem?_eq_some_iff.mp found
    constructor
    · intro _
      by_cases bad : c = Text.Utf8.replacement <;> simp [bad, Flaw.truncates]
    · intro _
      exact within

/-- A text that is cut off is so before a character, which the flaw tells. -/
theorem exists_of_truncates
    {flaw : Flaw}
    (h : Ending text stop (some flaw))
    (truncates : flaw.truncates = true) :
    ∃ c, text[stop]? = some c ∧ (flaw = .invalidUtf8 ↔ c = Text.Utf8.replacement) := by
  cases h with
  | unclosed => cases truncates
  | @stray _ c found =>
    refine ⟨c, found, ?_⟩
    by_cases bad : c = Text.Utf8.replacement <;> simp [bad]

/-- The issue that the end of the file is reported with. -/
def issues (stop : Nat) (flaw : Option Flaw) : List Issue :=
  (flaw.map (⟨·, .endAt stop⟩)).toList

end Ending

variable
  {text : List Char}
  {scanner : Scanner}

/-- In a short text, a step that yields the end of the file is the end of the text in one of the
three ways. -/
theorem ending_next
    (short : text.length < wordCount)
    (stands : scanner.Stands text)
    (ends : scanner.next.lexeme.symbol = .endOfFile) :
    ∃ stop flaw, Ending text stop flaw ∧ scanner.next.lexeme.token = .endAt stop ∧
      scanner.next.issues = Ending.issues stop flaw := by
  obtain ⟨before, whole, offset⟩ := stands
  have step := advance_next scanner
  generalize scanner.next = next at step ends ⊢
  cases step with
  | token _ _ _ found => exact absurd ends (spelled_read? found).token
  | assembler => cases ends
  | @stray gap rest place _ _ _ =>
    cases offset
    rw [← List.append_assoc] at whole
    have within : (before ++ gap).length < wordCount := by
      rw [whole, List.length_append] at short
      exact Nat.lt_of_le_of_lt (Nat.le_add_right _ _) short
    rw [← List.length_append, endAt, toWord_of_lt within, whole]
    cases rest with
    | nil =>
      refine ⟨_, none, ?_, rfl, rfl⟩
      rw [List.append_nil]
      exact .complete
    | cons c rest =>
      refine ⟨_, some _, .stray ?_, rfl, rfl⟩
      rw [List.getElem?_append_right (Nat.le_refl _), Nat.sub_self]
      rfl
  | @unclosed gap comment place _ _ =>
    cases offset
    rw [whole] at short ⊢
    rw [← List.length_append, endAt, toWord_of_lt short]
    exact ⟨_, some .unterminatedComment, .unclosed, rfl, rfl⟩

/-- A step reports at most one issue. -/
theorem length_issues_next_le (scanner : Scanner) : scanner.next.issues.length ≤ 1 := by
  have step := advance_next scanner
  generalize scanner.next = next at step ⊢
  cases step with
  | token _ _ _ found =>
    rw [tokenAt, List.length_map]
    exact (mild_read? found).single
  | assembler => exact Nat.zero_le _
  | @stray _ rest =>
    cases rest with
    | nil => exact Nat.zero_le _
    | cons c rest => exact Nat.le_refl _
  | unclosed => exact Nat.le_refl _

/-- An issue is located where the token starts that it is noticed at. -/
theorem start_of_issue
    {issue : Issue}
    (noticed : issue ∈ scanner.next.issues) :
    issue.token.start = scanner.next.lexeme.token.start := by
  have step := advance_next scanner
  generalize scanner.next = next at step noticed ⊢
  cases step with
  | token =>
    obtain ⟨flaw, -, rfl⟩ := List.mem_map.mp noticed
    cases flaw <;> rfl
  | assembler => cases noticed
  | stray =>
    obtain ⟨flaw, -, rfl⟩ := List.mem_map.mp noticed
    rfl
  | unclosed =>
    obtain ⟨flaw, -, rfl⟩ := List.mem_map.mp noticed
    rfl

/-- An issue about a token does not stop the scanner, and in a short text the token is not empty. -/
theorem issue_of_token
    {issue : Issue}
    (short : text.length < wordCount)
    (stands : scanner.Stands text)
    (continues : scanner.next.lexeme.symbol ≠ .endOfFile)
    (noticed : issue ∈ scanner.next.issues) :
    issue.flaw.ends = false ∧ issue.token.start = scanner.next.lexeme.token.start ∧
      scanner.next.lexeme.token.start < scanner.next.lexeme.token.stop := by
  have start := start_of_issue noticed
  have resumes := (steps_next stands).stands.offset_le
  have step := advance_next scanner
  generalize scanner.next = next at step continues noticed start resumes ⊢
  cases step with
  | @token gap rest reading place _ _ found =>
    obtain ⟨flaw, flawed, rfl⟩ := List.mem_map.mp noticed
    refine ⟨(mild_read? found).goesOn flaw flawed, start, ?_⟩
    have filled := List.length_pos_iff.mpr (front_read?_ne_nil found)
    rw [tokenAt, token_lexemeAt _ (Nat.lt_of_le_of_lt resumes short)]
    exact Nat.lt_add_of_pos_right filled
  | assembler => cases noticed
  | stray => exact absurd rfl continues
  | unclosed => exact absurd rfl continues

/-- A run finds tokens, and then comes to an end. -/
theorem exists_run_eq_append
    (stands : scanner.Stands text) :
    ∃ front, ∃ place : Scanner, scanner.run = front ++ [place.next] ∧ place.Stands text ∧
      place.next.lexeme.symbol = .endOfFile ∧
        ∀ step ∈ front, step.lexeme.symbol ≠ .endOfFile ∧
          ∃ scanner : Scanner, scanner.Stands text ∧ scanner.next = step := by
  fun_induction run scanner with
  | case1 scanner step ends => exact ⟨[], scanner, rfl, stands, ends, List.forall_mem_nil _⟩
  | case2 scanner step continues ih =>
    obtain ⟨front, place, same, arrived, ends, inner⟩ := ih (steps_next stands).stands
    refine ⟨step :: front, place, by rw [same, List.cons_append], arrived, ends, ?_⟩
    intro other member
    rcases List.mem_cons.mp member with rfl | later
    · exact ⟨continues, scanner, stands, rfl⟩
    · exact inner other later

end Scanner

/-- Every issue of a stream was reported by a step from some place of the text. -/
theorem TokenStream.exists_of_mem_issues
    {name : String}
    {text : List Char}
    {issue : Issue}
    (member : issue ∈ (ofText name text).issues) :
    ∃ scanner : Scanner, scanner.Stands text ∧ issue ∈ scanner.next.issues ∧
      scanner.next.lexeme.token ∈ (ofText name text).tokens := by
  obtain ⟨step, among, reported⟩ := List.mem_flatMap.mp member
  obtain ⟨scanner, stands, rfl⟩ := Scanner.exists_of_mem_run (Scanner.stands_ofText text) among
  refine ⟨scanner, stands, reported, ?_⟩
  rw [tokens_ofText]
  exact List.mem_map_of_mem among

/-- In a short text, issues are located within the text. -/
theorem TokenStream.start_le_of_mem_issues
    {name : String}
    {text : List Char}
    {issue : Issue}
    (short : text.length < wordCount)
    (member : issue ∈ (ofText name text).issues) :
    issue.token.start ≤ text.length := by
  obtain ⟨scanner, stands, noticed, -⟩ := exists_of_mem_issues member
  have covers := (Scanner.steps_next stands).covers short
  rw [Scanner.start_of_issue noticed]
  exact Nat.le_trans covers.ordered covers.within

/-- The issues of a stream tell where its text is cut off, and are in the order of the text. -/
structure TokenStream.Reported (stream : TokenStream) : Prop where
  truncated : ∃ stop, stream.tokens.getLast? = some (.endAt stop) ∧
    (stop < stream.text.length ↔
      ∃ flaw : Flaw, flaw.truncates = true ∧ stream.issues.getLast? = some ⟨flaw, .endAt stop⟩)
  character : ∀ issue ∈ stream.issues, issue.flaw.truncates = true →
    ∃ c, stream.text[issue.token.start]? = some c ∧
      (issue.flaw = .invalidUtf8 ↔ c = Text.Utf8.replacement)
  last : ∀ issue ∈ stream.issues.dropLast, issue.flaw.ends = false
  ordered : stream.issues.Pairwise fun earlier later => earlier.token.start < later.token.start

/-- There is one diagnostic for every issue, in the same order and at the location of its token. -/
def TokenStream.Delivered (stream : TokenStream) : Prop :=
  stream.diagnostics.map (fun diagnostic =>
      (diagnostic.level, diagnostic.message.problem, diagnostic.message.location)) =
    stream.issues.map fun issue =>
      (.error, .lexical issue.flaw, stream.location issue.token)

/-- Issues of steps that are in the order of the text are so too: the one about a token is where the
token begins. -/
theorem Scanned.pairwise_flatMap_issues
    {text : List Char}
    {steps : List Scanned}
    (short : text.length < wordCount)
    (inner : ∀ step ∈ steps, step.lexeme.symbol ≠ .endOfFile ∧
      ∃ scanner : Scanner, scanner.Stands text ∧ scanner.next = step)
    (ordered : steps.Pairwise fun earlier later =>
      earlier.lexeme.token.stop ≤ later.lexeme.token.start) :
    (steps.flatMap (·.issues)).Pairwise fun earlier later =>
      earlier.token.start < later.token.start := by
  rw [List.pairwise_flatMap]
  refine ⟨?_, ordered.imp_of_mem ?_⟩
  · intro step member
    obtain ⟨-, scanner, -, rfl⟩ := inner step member
    have single := scanner.length_issues_next_le
    generalize scanner.next.issues = issues at single ⊢
    cases issues with
    | nil => exact .nil
    | cons issue others =>
      obtain rfl := List.eq_nil_of_length_eq_zero (Nat.le_zero.mp (Nat.le_of_succ_le_succ single))
      exact List.pairwise_singleton _ _
  · intro earlier later first second before one noticed other reported
    obtain ⟨continues, scanner, stands, rfl⟩ := inner earlier first
    obtain ⟨-, place, -, rfl⟩ := inner later second
    obtain ⟨-, begins, filled⟩ := Scanner.issue_of_token short stands continues noticed
    have starts := Scanner.start_of_issue reported
    omega

namespace Scanner.Ending

variable
  {text : List Char}
  {stop : Nat}
  {flaw : Option Flaw}
  {front : List Issue}

/-- Where earlier issues do not cut the text off, the last issue tells whether it is. -/
theorem lt_length_iff_getLast?
    (h : Ending text stop flaw)
    (mild : ∀ issue ∈ front, issue.flaw.ends = false) :
    stop < text.length ↔ ∃ reason : Flaw, reason.truncates = true ∧
      (front ++ issues stop flaw).getLast? = some ⟨reason, .endAt stop⟩ := by
  rw [h.lt_length_iff]
  cases flaw with
  | some flaw => simp [issues]
  | none =>
    simp only [issues, Option.map_none, Option.toList_none, List.append_nil, Option.any_none,
      Bool.false_eq_true, false_iff]
    rintro ⟨reason, truncates, at_end⟩
    have goesOn := Flaw.truncates_of_not_ends (mild _ (List.mem_of_getLast? at_end))
    rw [truncates] at goesOn
    cases goesOn

/-- An issue that cuts the text off is about the character it is located at. -/
theorem exists_of_mem
    (h : Ending text stop flaw)
    (mild : ∀ issue ∈ front, issue.flaw.ends = false)
    {issue : Issue}
    (member : issue ∈ front ++ issues stop flaw)
    (truncates : issue.flaw.truncates = true) :
    ∃ c, text[issue.token.start]? = some c ∧
      (issue.flaw = .invalidUtf8 ↔ c = Text.Utf8.replacement) := by
  rcases List.mem_append.mp member with earlier | at_end
  · have goesOn := Flaw.truncates_of_not_ends (mild issue earlier)
    rw [truncates] at goesOn
    cases goesOn
  · obtain ⟨flaw, rfl, rfl⟩ := Option.map_eq_some_iff.mp (Option.mem_toList.mp at_end)
    exact h.exists_of_truncates truncates

theorem mem_of_mem_dropLast
    {issue : Issue}
    (member : issue ∈ (front ++ issues stop flaw).dropLast) :
    issue ∈ front := by
  cases flaw with
  | none =>
    rw [issues, Option.map_none, Option.toList_none, List.append_nil] at member
    exact List.dropLast_subset _ member
  | some flaw =>
    rw [issues, Option.map_some, Option.toList_some, List.dropLast_concat] at member
    exact member

end Scanner.Ending

/-- In a short text, the end of the file is never before the end of the text without a word. -/
theorem TokenStream.reported_ofText
    (name : String)
    {text : List Char}
    (short : text.length < wordCount) :
    (ofText name text).Reported := by
  have stands := Scanner.stands_ofText text
  obtain ⟨front, place, same, arrived, closes, inner⟩ := Scanner.exists_run_eq_append stands
  obtain ⟨stop, flaw, ending, token, reported⟩ := Scanner.ending_next short arrived closes
  have ordered := (Scanner.sequence_run short stands).ordered
  rw [same, List.map_append, List.pairwise_append] at ordered
  obtain ⟨inOrder, -, before⟩ := ordered
  have issues : (ofText name text).issues =
      front.flatMap (·.issues) ++ Scanner.Ending.issues stop flaw := by
    rw [← reported, ofText, same, List.flatMap_append, List.flatMap_singleton]
  have inFront : ∀ issue ∈ front.flatMap (·.issues),
      issue.flaw.ends = false ∧ issue.token.start < stop := by
    intro issue member
    obtain ⟨step, found, noticed⟩ := List.mem_flatMap.mp member
    obtain ⟨continues, scanner, stands, rfl⟩ := inner step found
    obtain ⟨goesOn, begins, filled⟩ := Scanner.issue_of_token short stands continues noticed
    have ahead := before _ (List.mem_map_of_mem found) _ (List.mem_singleton_self _)
    rw [token] at ahead
    simp only [Token.endAt] at ahead
    exact ⟨goesOn, by omega⟩
  have mild := fun issue member => (inFront issue member).1
  refine ⟨⟨stop, ?_, ?_⟩, ?_, ?_, ?_⟩
  · rw [tokens_ofText, same]
    simp [token]
  · rw [issues]
    exact ending.lt_length_iff_getLast? mild
  · rw [issues]
    intro issue
    exact ending.exists_of_mem mild
  · rw [issues]
    intro issue member
    exact mild issue (Scanner.Ending.mem_of_mem_dropLast member)
  · rw [issues, List.pairwise_append]
    refine ⟨Scanned.pairwise_flatMap_issues short inner (List.pairwise_map.mp inOrder), ?_, ?_⟩
    · cases flaw with
      | none => exact .nil
      | some flaw => exact List.pairwise_singleton _ _
    · intro issue member final at_end
      obtain ⟨flaw, -, rfl⟩ := Option.map_eq_some_iff.mp (Option.mem_toList.mp at_end)
      exact (inFront issue member).2

end Oberon
