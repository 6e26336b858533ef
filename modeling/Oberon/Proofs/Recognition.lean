import Oberon.Proofs.Advance
import Oberon.Proofs.Place

/-!
# What a token is recognized by

`Scan.Recognized` lists the kinds of tokens by the characters they start with; it agrees with the
reader (`Scan.recognized_iff`).  A mark is the longest one that the text starts with
(`Mark.longest?_eq_some_iff`), a word ends where it cannot be continued, and a literal between
quotes ends at the first mark that closes it.

Together these say that the symbol of every token fits the characters it covers
(`Source.tokens_fit`).
-/

namespace Oberon

namespace Mark

theorem mem_all (m : Mark) : m ∈ all := by
  cases m <;> decide

theorem spelling_injective
    {m other : Mark}
    (h : m.spelling = other.spelling) :
    m = other := by
  have unique : ∀ m ∈ all, ∀ other ∈ all, m.spelling = other.spelling → m = other := by
    decide +kernel
  exact unique m m.mem_all other other.mem_all h

/-- No mark comes before one that its spelling begins. -/
theorem pairwise_all :
    all.Pairwise fun m later => m.spelling.toList <+: later.spelling.toList → m = later := by
  decide +kernel

theorem spelling_isPrefix_of_longest?
    {text : List Char}
    {m : Mark}
    (h : longest? text = some m) :
    m.spelling.toList <+: text := by
  have fits := List.find?_some h
  exact List.isPrefixOf_iff_prefix.mp fits

theorem length_le_of_longest?
    {text : List Char}
    {m other : Mark}
    (h : longest? text = some m)
    (fits : other.spelling.toList <+: text) :
    other.spelling.length ≤ m.spelling.length := by
  obtain ⟨found, before, after, whole, earlier⟩ := List.find?_eq_some_iff_append.mp h
  apply Nat.le_of_not_lt
  intro longer
  have extended : m.spelling.toList <+: other.spelling.toList := by
    apply List.prefix_of_prefix_length_le (spelling_isPrefix_of_longest? h) fits
    simp only [String.length_toList]
    omega
  have member := other.mem_all
  rw [whole, List.mem_append, List.mem_cons] at member
  rcases member with first | rfl | later
  · have refused := earlier other first
    rw [List.isPrefixOf_iff_prefix.mpr fits] at refused
    cases refused
  · exact Nat.lt_irrefl _ longer
  · have ordered := pairwise_all
    rw [whole] at ordered
    have tail := (List.pairwise_append.mp ordered).2.1
    have same := (List.pairwise_cons.mp tail).1 other later extended
    subst same
    exact Nat.lt_irrefl _ longer

/-- The mark that is found is the longest one. -/
theorem longest?_eq_some_iff
    {text : List Char}
    {m : Mark} :
    longest? text = some m ↔
      m.spelling.toList <+: text ∧
        ∀ other : Mark, other.spelling.toList <+: text →
          other.spelling.length ≤ m.spelling.length := by
  constructor
  · intro h
    exact ⟨spelling_isPrefix_of_longest? h, fun other => length_le_of_longest? h⟩
  · rintro ⟨fits, longest⟩
    cases found : longest? text with
    | none =>
      have refused := List.find?_eq_none.mp found m m.mem_all
      exact absurd (List.isPrefixOf_iff_prefix.mpr fits) refused
    | some other =>
      have starts := spelling_isPrefix_of_longest? found
      have shorter := longest other starts
      have longer := length_le_of_longest? found fits
      have same : other.spelling.toList = m.spelling.toList := by
        apply (List.prefix_of_prefix_length_le starts fits _).eq_of_length
        all_goals simp only [String.length_toList]; omega
      rw [spelling_injective (String.toList_inj.mp same)]

end Mark

namespace Scan

/-- The tokens that a text can start with. -/
inductive Recognized : List Char → Reading → Prop
  | quoted
      {delimiter : Char}
      (rest : List Char)
      (quote : delimiter = '"' ∨ delimiter = '\x27') :
      Recognized (delimiter :: rest) (quoted delimiter rest)
  | escaped
      (rest : List Char) :
      Recognized ('\\' :: '"' :: rest) (escapedString rest)
  | number
      {c : Char}
      (rest : List Char)
      (digit : isDecimal c = true) :
      Recognized (c :: rest) (number (c :: rest))
  | word
      {c : Char}
      (rest : List Char)
      (letter : startsWord c = true) :
      Recognized (c :: rest) (word (c :: rest))
  | mark
      {text : List Char}
      {m : Mark}
      (longest : Mark.longest? text = some m)
      (plain : ∀ rest, text ≠ '\\' :: '"' :: rest) :
      Recognized text ⟨.mark m, ⟨m.spelling.toList, text.drop m.spelling.toList.length⟩, []⟩

theorem isDecimal_of_startsWord
    {c : Char}
    (letter : startsWord c = true) :
    isDecimal c = false := by
  change (c == '_' || (decide ('A'.val ≤ c.val ∧ c.val ≤ 'Z'.val) ||
    ('a'.val ≤ c.val && c.val ≤ 'z'.val))) = true at letter
  simp only [isDecimal, Char.isDigit, Bool.or_eq_true, beq_iff_eq, Bool.and_eq_true,
    decide_eq_true_eq, ge_iff_le, UInt32.le_iff_toNat_le] at letter ⊢
  rcases letter with rfl | inRange
  · rfl
  · simp at inRange ⊢
    omega

/-- A mark starts with a character that starts nothing else. -/
theorem exists_spelling_eq_cons
    (m : Mark) :
    ∃ c rest, m.spelling.toList = c :: rest ∧ isDecimal c = false ∧ startsWord c = false ∧
      isBlank c = false ∧ c ≠ '"' ∧ c ≠ '\x27' := by
  cases m <;> exact ⟨_, _, rfl, by decide⟩

/-- Without a quote in front, the first character decides alone. -/
theorem read?_cons
    {c : Char}
    {rest : List Char}
    (double : c ≠ '"')
    (single : c ≠ '\x27')
    (plain : ∀ others, c :: rest ≠ '\\' :: '"' :: others) :
    read? (c :: rest) =
      if isDecimal c then some (number (c :: rest))
      else if startsWord c then some (word (c :: rest))
      else mark? (c :: rest) := by
  rw [read?]
  · exact double
  · exact single
  · rintro others rfl rfl
    exact plain others rfl

theorem Recognized.read?_eq
    {text : List Char}
    {reading : Reading}
    (h : Recognized text reading) :
    read? text = some reading := by
  cases h with
  | quoted rest quote => rcases quote with rfl | rfl <;> rfl
  | escaped rest => rfl
  | @number c rest digit =>
    have other : ∀ d, isDecimal d = false → c ≠ d := by
      rintro d different rfl
      cases digit.symm.trans different
    rw [read?_cons (other _ rfl) (other _ rfl), if_pos digit]
    intro others same
    exact other '\\' rfl (List.cons.inj same).1
  | @word c rest letter =>
    have other : ∀ d, startsWord d = false → c ≠ d := by
      rintro d different rfl
      cases letter.symm.trans different
    rw [read?_cons (other _ rfl) (other _ rfl), if_neg (by simp [isDecimal_of_startsWord letter]),
      if_pos letter]
    intro others same
    exact other '\\' rfl (List.cons.inj same).1
  | @mark _ m longest plain =>
    obtain ⟨c, rest, spelled, digit, letter, -, double, single⟩ := exists_spelling_eq_cons m
    obtain ⟨others, rfl⟩ := Mark.spelling_isPrefix_of_longest? longest
    rw [spelled, List.cons_append] at longest plain ⊢
    rw [read?_cons double single plain, if_neg (by simp [digit]), if_neg (by simp [letter]), mark?,
      longest, Option.map_some, spelled]

theorem recognized_of_read?
    {text : List Char}
    {reading : Reading}
    (h : read? text = some reading) :
    Recognized text reading := by
  unfold read? at h
  split at h
  · cases h
  · cases h
    exact .quoted _ (.inl rfl)
  · cases h
    exact .quoted _ (.inr rfl)
  · cases h
    exact .escaped _
  · rename_i c rest notDouble notSingle notEscaped
    split at h
    · cases h
      exact .number rest ‹_›
    · split at h
      · cases h
        exact .word rest ‹_›
      · obtain ⟨m, longest, rfl⟩ := Option.map_eq_some_iff.mp h
        refine .mark longest ?_
        intro others same
        cases same
        exact notEscaped others rfl rfl

theorem recognized_iff
    {text : List Char}
    {reading : Reading} :
    Recognized text reading ↔ read? text = some reading :=
  ⟨Recognized.read?_eq, recognized_of_read?⟩

/-- A letter or underscore, and then letters, digits and underscores. -/
def IsWord (text : List Char) : Prop :=
  ∃ c rest, text = c :: rest ∧ startsWord c = true ∧ ∀ d ∈ rest, continuesWord d = true

theorem continuesWord_of_startsWord
    {c : Char}
    (letter : startsWord c = true) :
    continuesWord c = true := by
  simp only [startsWord, continuesWord, Char.isAlphanum, Bool.or_eq_true] at letter ⊢
  exact letter.imp_right Or.inl

theorem isWord_front_takeWhile
    {c : Char}
    (rest : List Char)
    (letter : startsWord c = true) :
    IsWord (Cut.takeWhile continuesWord (c :: rest)).front := by
  refine ⟨c, rest.takeWhile continuesWord, ?_, letter, ?_⟩
  · rw [Cut.takeWhile, List.takeWhile_cons_of_pos (continuesWord_of_startsWord letter)]
  · exact Cut.forall_mem_front_takeWhile continuesWord rest

/-- The mark that opens and closes an escaped string. -/
def escapedQuote : List Char := ['\\', '"']

/-- The texts of strings that are closed. -/
inductive ClosedString : List Char → Prop
  | quoted
      {delimiter : Char}
      {body : List Char}
      (quote : delimiter = '"' ∨ delimiter = '\x27')
      (free : delimiter ∉ body)
      (several : delimiter = '\x27' → body.length ≠ 1) :
      ClosedString (delimiter :: body ++ [delimiter])
  | escaped
      {body : List Char}
      (free : ¬ escapedQuote <:+: body) :
      ClosedString (escapedQuote ++ body ++ escapedQuote)

/-- The texts of strings that nothing closes. -/
inductive UnclosedString : List Char → Prop
  | quoted
      {delimiter : Char}
      {body : List Char}
      (quote : delimiter = '"' ∨ delimiter = '\x27')
      (free : delimiter ∉ body) :
      UnclosedString (delimiter :: body)
  | escaped
      {body : List Char}
      (free : ¬ escapedQuote <:+: body) :
      UnclosedString (escapedQuote ++ body)

theorem quoted_closed
    {delimiter : Char}
    {body : List Char}
    (free : delimiter ∉ body)
    (rest : List Char) :
    quoted delimiter (body ++ delimiter :: rest) =
      ⟨if delimiter = '\x27' ∧ body.length = 1 then .character else .string,
        ⟨delimiter :: body ++ [delimiter], rest⟩, []⟩ := by
  have inside : ∀ c ∈ body, (c != delimiter) = true := by
    intro c member
    simpa using fun same : c = delimiter => free (same ▸ member)
  have stops : (delimiter :: rest).head?.any (· != delimiter) = false := by simp
  simp only [quoted, Cut.takeWhile_append inside stops]

theorem quoted_unclosed
    {delimiter : Char}
    {body : List Char}
    (free : delimiter ∉ body) :
    quoted delimiter body =
      ⟨.string, ⟨delimiter :: body, []⟩, [.unterminatedString]⟩ := by
  have inside : ∀ c ∈ body, (c != delimiter) = true := by
    intro c member
    simpa using fun same : c = delimiter => free (same ▸ member)
  have all : Cut.takeWhile (· != delimiter) body = ⟨body, []⟩ := by
    simpa using Cut.takeWhile_append inside (rfl : ([] : List Char).head?.any _ = false)
  simp only [quoted, all, openString, Cut.after, List.singleton_append]

theorem throughEscapedQuote_cons
    {c : Char}
    {rest : List Char}
    (other : ¬ escapedQuote <+: c :: rest) :
    throughEscapedQuote (c :: rest) = (throughEscapedQuote rest).after [c] := by
  rw [throughEscapedQuote]
  rintro others rfl rfl
  exact other ⟨others, rfl⟩

theorem throughEscapedQuote_closed
    {body : List Char}
    (free : ¬ escapedQuote <:+: body)
    (rest : List Char) :
    throughEscapedQuote (body ++ escapedQuote ++ rest) = ⟨⟨body ++ escapedQuote, rest⟩, true⟩ := by
  induction body with
  | nil => rfl
  | cons c body ih =>
    rw [List.infix_cons_iff, not_or] at free
    have other : ¬ escapedQuote <+: c :: (body ++ escapedQuote ++ rest) := by
      intro starts
      cases body with
      | nil => simp [escapedQuote] at starts
      | cons d body =>
        refine free.1 ?_
        simp only [escapedQuote, List.cons_append, List.cons_prefix_cons] at starts ⊢
        exact ⟨starts.1, starts.2.1, List.nil_prefix⟩
    rw [List.cons_append, List.cons_append, throughEscapedQuote_cons other, ih free.2]
    rfl

theorem throughEscapedQuote_unclosed
    {body : List Char}
    (free : ¬ escapedQuote <:+: body) :
    throughEscapedQuote body = ⟨⟨body, []⟩, false⟩ := by
  induction body with
  | nil => rfl
  | cons c body ih =>
    rw [List.infix_cons_iff, not_or] at free
    rw [throughEscapedQuote_cons free.1, ih free.2]
    rfl

/-- A mark that occurs has a first occurrence. -/
theorem exists_first_escapedQuote
    {text : List Char}
    (occurs : escapedQuote <:+: text) :
    ∃ body rest, text = body ++ escapedQuote ++ rest ∧ ¬ escapedQuote <:+: body := by
  induction text with
  | nil => simp [escapedQuote] at occurs
  | cons c text ih =>
    by_cases starts : escapedQuote <+: c :: text
    · obtain ⟨rest, whole⟩ := starts
      exact ⟨[], rest, whole.symm, by simp [escapedQuote]⟩
    · obtain ⟨body, rest, rfl, free⟩ := ih ((List.infix_cons_iff.mp occurs).resolve_left starts)
      refine ⟨c :: body, rest, rfl, ?_⟩
      rw [List.infix_cons_iff, not_or]
      refine ⟨?_, free⟩
      rintro ⟨others, whole⟩
      refine starts ⟨others ++ (escapedQuote ++ rest), ?_⟩
      rw [← List.append_assoc, whole, List.append_assoc, List.cons_append]

theorem escapedString_closed
    {body : List Char}
    (free : ¬ escapedQuote <:+: body)
    (rest : List Char) :
    escapedString (body ++ escapedQuote ++ rest) =
      ⟨.string, ⟨escapedQuote ++ body ++ escapedQuote, rest⟩, []⟩ := by
  simp only [escapedString, throughEscapedQuote_closed free, if_true]
  rfl

theorem escapedString_unclosed
    {body : List Char}
    (free : ¬ escapedQuote <:+: body) :
    escapedString body =
      ⟨.string, ⟨escapedQuote ++ body, []⟩, [.unterminatedString]⟩ := by
  simp only [escapedString, throughEscapedQuote_unclosed free, Bool.false_eq_true, if_false]
  rfl

/-- A number is flawless or malformed. -/
theorem exists_numeral
    (text : List Char) :
    ∃ symbol cut valid, number text = numeral symbol cut valid := by
  fun_cases number text with
  | case1 => exact ⟨_, _, _, rfl⟩
  | case2 rest => fun_cases binaryNumber rest <;> exact ⟨_, _, _, rfl⟩
  | case3 => fun_cases plainNumber text <;> exact ⟨_, _, _, rfl⟩

theorem symbol_number
    (text : List Char) :
    (number text).symbol = .integer ∨ (number text).symbol = .real ∨
      (number text).symbol = .character := by
  fun_cases number text with
  | case1 => exact .inl rfl
  | case2 rest => fun_cases binaryNumber rest <;> exact .inl rfl
  | case3 =>
    fun_cases plainNumber text with
    | case1 => exact .inl rfl
    | case2 => exact .inr (.inr rfl)
    | case3 => exact .inl rfl
    | case4 => exact .inr (.inl rfl)
    | case5 => exact .inl rfl

/-- What is covered starts with the first character of the text. -/
theorem head?_front_read?
    {c : Char}
    {rest : List Char}
    {reading : Reading}
    (h : read? (c :: rest) = some reading) :
    reading.cut.front.head? = some c := by
  have whole := whole_read? h
  have filled := front_read?_ne_nil h
  rw [Cut.whole] at whole
  cases front : reading.cut.front with
  | nil => exact absurd front filled
  | cons d others =>
    rw [front, List.cons_append] at whole
    rw [List.head?_cons, (List.cons.inj whole).1]

/-- The symbol of what is read fits the characters that are read. -/
structure Reading.Fits (text : List Char) (reading : Reading) : Prop where
  mark : ∀ m, reading.symbol = .mark m → Mark.longest? text = some m
  word : reading.symbol = .ident ∨ (∃ w, reading.symbol = .word w) →
    IsWord reading.cut.front ∧ reading.cut.back.head?.any continuesWord = false ∧
      (reading.symbol = .ident ↔ Word.ofSpelling? (String.ofList reading.cut.front) = none)
  character : reading.symbol = .character → reading.cut.front.head? = some '\x27' →
    ∃ c, c ≠ '\x27' ∧ reading.cut.front = ['\x27', c, '\x27']
  string : reading.symbol = .string →
    ClosedString reading.cut.front ∨
      UnclosedString reading.cut.front ∧ reading.cut.back = [] ∧
        .unterminatedString ∈ reading.flaws

theorem flaws_word (text : List Char) : (word text).flaws = [] := by
  fun_cases word text <;> rfl

theorem fits_word
    {c : Char}
    (rest : List Char)
    (letter : startsWord c = true) :
    (word (c :: rest)).Fits (c :: rest) := by
  have starts := isWord_front_takeWhile rest letter
  have stops := Cut.head?_back_takeWhile continuesWord (c :: rest)
  fun_cases word (c :: rest) with
  | case1 cut w found =>
    refine ⟨?_, fun _ => ⟨starts, stops, by simp [found]⟩, ?_, ?_⟩
    · rintro _ ⟨⟩
    · rintro ⟨⟩
    · rintro ⟨⟩
  | case2 cut missing =>
    refine ⟨?_, fun _ => ⟨starts, stops, by simp [missing]⟩, ?_, ?_⟩
    · rintro _ ⟨⟩
    · rintro ⟨⟩
    · rintro ⟨⟩

theorem fits_number
    {c : Char}
    (rest : List Char)
    (digit : isDecimal c = true) :
    (number (c :: rest)).Fits (c :: rest) := by
  have head := head?_front_read? (Recognized.number rest digit).read?_eq
  have kind := symbol_number (c :: rest)
  refine ⟨?_, ?_, ?_, ?_⟩
  · intro m same
    simp [same] at kind
  · rintro (same | ⟨w, same⟩)
    · simp [same] at kind
    · simp [same] at kind
  · -- a character code starts with a digit
    intro _ quote
    rw [head] at quote
    cases quote
    cases digit
  · intro same
    simp [same] at kind

theorem fits_quoted
    {delimiter : Char}
    (rest : List Char)
    (quote : delimiter = '"' ∨ delimiter = '\x27') :
    (quoted delimiter rest).Fits (delimiter :: rest) := by
  by_cases closes : delimiter ∈ rest
  · obtain ⟨body, others, rfl, free⟩ := List.eq_append_cons_of_mem closes
    rw [quoted_closed free]
    by_cases single : delimiter = '\x27' ∧ body.length = 1
    · obtain ⟨c, rfl⟩ := List.length_eq_one_iff.mp single.2
      have other : c ≠ delimiter := fun same => free (same ▸ List.mem_singleton_self c)
      rw [if_pos single]
      refine ⟨nofun, by simp, fun _ _ => ⟨c, ?_, ?_⟩, nofun⟩
      · exact single.1 ▸ other
      · rw [single.1]
        rfl
    · rw [if_neg single]
      refine ⟨nofun, by simp, nofun, fun _ => .inl (.quoted quote free ?_)⟩
      intro same one
      exact single ⟨same, one⟩
  · rw [quoted_unclosed closes]
    exact ⟨nofun, by simp, nofun, fun _ => .inr ⟨.quoted quote closes, rfl, List.mem_singleton_self _⟩⟩

theorem fits_escapedString
    (rest : List Char) :
    (escapedString rest).Fits ('\\' :: '"' :: rest) := by
  by_cases closes : escapedQuote <:+: rest
  · obtain ⟨body, others, rfl, free⟩ := exists_first_escapedQuote closes
    rw [escapedString_closed free]
    exact ⟨nofun, by simp, nofun, fun _ => .inl (.escaped free)⟩
  · rw [escapedString_unclosed closes]
    exact ⟨nofun, by simp, nofun, fun _ => .inr ⟨.escaped closes, rfl, List.mem_singleton_self _⟩⟩

/-- Whatever is read fits the text. -/
theorem Recognized.fits
    {text : List Char}
    {reading : Reading}
    (h : Recognized text reading) :
    reading.Fits text := by
  cases h with
  | quoted rest quote => exact fits_quoted rest quote
  | escaped rest => exact fits_escapedString rest
  | number rest digit => exact fits_number rest digit
  | word rest letter => exact fits_word rest letter
  | @mark _ m longest plain =>
    refine ⟨?_, by simp, nofun, nofun⟩
    rintro _ ⟨⟩
    exact longest

end Scan

open Scan

/-- The symbol of a token fits the characters that it covers. -/
structure TokenStream.Fits (stream : TokenStream) (token : Token) : Prop where
  plain : token.symbol.hasText = false →
    stream.sourceText token = token.symbol.reading.toList
  mark : ∀ m, token.symbol = .mark m →
    m.spelling.toList <+: stream.text.drop token.start ∧
      ∀ other : Mark, other.spelling.toList <+: stream.text.drop token.start →
        other.spelling.length ≤ m.spelling.length
  word : token.symbol = .ident ∨ (∃ w, token.symbol = .word w) →
    IsWord (stream.sourceText token) ∧
      (stream.text.drop token.stop).head?.any continuesWord = false ∧
      (token.symbol = .ident ↔
        Word.ofSpelling? (String.ofList (stream.sourceText token)) = none)
  character : token.symbol = .character → (stream.sourceText token).head? = some '\x27' →
    ∃ c, c ≠ '\x27' ∧ stream.sourceText token = ['\x27', c, '\x27']
  string : token.symbol = .string →
    ClosedString (stream.sourceText token) ∨
      UnclosedString (stream.sourceText token) ∧ token.stop = stream.text.length ∧
        ⟨.unterminatedString, token⟩ ∈ stream.issues

namespace TokenStream

variable
  {stream : TokenStream}
  {before : List Char}
  {reading : Reading}

theorem token_lexemeAt
    (short : stream.text.length < wordCount)
    (whole : stream.text = before ++ reading.cut.whole) :
    (Scanner.lexemeAt reading.symbol before.length reading.cut.front).token =
      ⟨reading.symbol, before.length, (before ++ reading.cut.front).length⟩ := by
  rw [whole, Cut.whole, ← List.append_assoc, List.length_append] at short
  rw [Scanner.token_lexemeAt, List.length_append]
  rw [← List.length_append]
  exact Nat.lt_of_le_of_lt (Nat.le_add_right _ _) short

theorem sourceText_lexemeAt
    (short : stream.text.length < wordCount)
    (whole : stream.text = before ++ reading.cut.whole) :
    stream.sourceText (Scanner.lexemeAt reading.symbol before.length reading.cut.front).token =
      reading.cut.front := by
  rw [token_lexemeAt short whole, sourceText, whole, Cut.whole, ← List.append_assoc,
    List.take_left, List.drop_left]

theorem drop_stop_lexemeAt
    (short : stream.text.length < wordCount)
    (whole : stream.text = before ++ reading.cut.whole) :
    stream.text.drop (Scanner.lexemeAt reading.symbol before.length reading.cut.front).token.stop =
      reading.cut.back := by
  rw [token_lexemeAt short whole, whole, Cut.whole, ← List.append_assoc, List.drop_left]

/-- A token that is read somewhere in a short text fits it there. -/
theorem fits_lexemeAt
    (short : stream.text.length < wordCount)
    (whole : stream.text = before ++ reading.cut.whole)
    (found : read? reading.cut.whole = some reading)
    (reported : ∀ issue ∈ (Scanner.tokenAt before.length reading).issues,
      issue ∈ stream.issues) :
    stream.Fits (Scanner.lexemeAt reading.symbol before.length reading.cut.front).token := by
  have fits := (recognized_of_read? found).fits
  have covered := sourceText_lexemeAt short whole
  have behind := drop_stop_lexemeAt short whole
  have token := token_lexemeAt short whole
  have ahead : stream.text.drop before.length = reading.cut.whole := by
    rw [whole, List.drop_left]
  refine ⟨?_, ?_, ?_, ?_, ?_⟩
  · intro plain
    rw [covered]
    exact (spelled_read? found).plain plain
  · intro m same
    have longest := Mark.longest?_eq_some_iff.mp (fits.mark m same)
    rw [token]
    rwa [← ahead] at longest
  · intro word
    rw [covered, behind]
    exact fits.word word
  · rw [covered]
    exact fits.character
  · intro string
    rw [covered]
    rcases fits.string string with closed | ⟨unclosed, nothing, flawed⟩
    · exact .inl closed
    · refine .inr ⟨unclosed, ?_, reported _ (List.mem_map_of_mem flawed)⟩
      rw [token, whole, Cut.whole, nothing, List.append_nil]

end TokenStream

end Oberon
