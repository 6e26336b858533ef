import Mathlib.Order.Bounds.Basic
import Oberon.Proofs.Relayout

/-!
# Assembler text is enclosed

After `CODE` everything up to the next `END` is assembler text, where `END` has to be a word of its
own (`Scan.HasEndAt`).  The search for it (`Scan.beforeEnd`) goes through the text with one bit of
memory, whether the last character belongs to a word; so it is described for a text of which some
characters have been read, and finds the first `END` from there on (`Scan.isLeast_beforeEnd`).

Assembler text occurs right after `CODE` and nowhere else, since the scanner is in code exactly
then, and the token after it is an `END` or the end of the file (`TokenStream.Enclosed`).  In a text
that is short enough for all of its places to be offsets, that `END` is the first one
(`TokenStream.Encloses`).
-/

namespace Oberon

namespace Scan

/-- The word `END` stands at a place of a text: no letter, digit or underscore touches it. -/
def HasEndAt (text : List Char) (place : Nat) : Prop :=
  ∃ before after, text = before ++ 'E' :: 'N' :: 'D' :: after ∧ before.length = place ∧
    before.getLast?.any continuesWord = false ∧ after.head?.any continuesWord = false

section

variable
  {before text : List Char}
  {boundary : Bool}
  {place : Nat}

theorem hasEndAt_length_iff :
    HasEndAt (before ++ text) before.length ↔
      before.getLast?.any continuesWord = false ∧ startsWithEnd text = true := by
  rw [startsWithEnd_iff]
  constructor
  · rintro ⟨front, after, whole, place, apart, stops⟩
    obtain ⟨rfl, rfl⟩ := List.append_inj whole place.symm
    exact ⟨apart, after, rfl, stops⟩
  · rintro ⟨apart, after, rfl, stops⟩
    exact ⟨before, after, rfl, rfl, apart, stops⟩

/-- An `END` lies within its text. -/
theorem HasEndAt.lt_length
    (h : HasEndAt text place) :
    place < text.length := by
  obtain ⟨before, after, rfl, rfl, -, -⟩ := h
  simp

/-- No `END` comes before the place where the search stops. -/
theorem le_of_hasEndAt
    (after : boundary = !before.getLast?.any continuesWord)
    (found : HasEndAt (before ++ text) place)
    (ahead : before.length ≤ place) :
    before.length + (beforeEnd boundary text).front.length ≤ place := by
  fun_induction beforeEnd boundary text generalizing before with
  | case1 => exact ahead
  | case2 => exact ahead
  | case3 boundary c rest other ih =>
    have later : before.length ≠ place := by
      rintro rfl
      obtain ⟨apart, ends⟩ := hasEndAt_length_iff.mp found
      simp [after, apart, ends] at other
    have split : before ++ c :: rest = (before ++ [c]) ++ rest := by simp
    rw [split] at found
    have bound := ih (by simp) found (by simp; omega)
    simp only [List.length_append, List.length_singleton] at bound
    simp only [Cut.after, List.singleton_append, List.length_cons]
    omega

/-- The search stops at an `END`, unless it comes to the end of the text. -/
theorem hasEndAt_beforeEnd
    (after : boundary = !before.getLast?.any continuesWord)
    (more : (beforeEnd boundary text).back ≠ []) :
    HasEndAt (before ++ text) (before.length + (beforeEnd boundary text).front.length) := by
  fun_induction beforeEnd boundary text generalizing before with
  | case1 => exact absurd rfl more
  | case2 boundary c rest found =>
    obtain ⟨free, ends⟩ := Bool.and_eq_true_iff.mp found
    refine hasEndAt_length_iff.mpr ⟨?_, ends⟩
    simpa [free] using after
  | case3 boundary c rest other ih =>
    have apart : (!continuesWord c) = !(before ++ [c]).getLast?.any continuesWord := by simp
    have stops := ih apart more
    simpa [Cut.after, Nat.add_comm, Nat.add_left_comm, Nat.add_assoc] using stops

/-- Where no word can go on, the search does not depend on what was read. -/
theorem beforeEnd_eq_of_head
    (boundary : Bool)
    (stops : text.head?.any continuesWord = false) :
    beforeEnd boundary text = beforeEnd true text := by
  cases text with
  | nil => rfl
  | cons c rest =>
    have other : startsWithEnd (c :: rest) = false := by
      rw [Bool.eq_false_iff, Ne, startsWithEnd_iff]
      rintro ⟨others, same, -⟩
      cases same
      cases stops
    rw [beforeEnd, beforeEnd, other, Bool.and_false, Bool.and_false]

theorem beforeEnd_append_blanks
    {blanks rest : List Char}
    (blank : ∀ c ∈ blanks, isBlank c = true) :
    beforeEnd true (blanks ++ rest) = (beforeEnd true rest).after blanks := by
  induction blanks with
  | nil => rfl
  | cons c blanks ih =>
    have others := ih fun d member => blank d (List.mem_cons_of_mem c member)
    exact beforeEnd_blank (blank c List.mem_cons_self) others

/-- Where no word can go on, the search finds the first `END` from there on, if there is one. -/
theorem isLeast_beforeEnd
    (stops : text.head?.any continuesWord = false)
    (more : (beforeEnd true text).back ≠ []) :
    IsLeast {place | before.length ≤ place ∧ HasEndAt (before ++ text) place}
      (before.length + (beforeEnd true text).front.length) := by
  have same := beforeEnd_eq_of_head (!before.getLast?.any continuesWord) stops
  refine ⟨⟨Nat.le_add_right _ _, ?_⟩, ?_⟩
  · rw [← same] at more ⊢
    exact hasEndAt_beforeEnd rfl more
  · rintro place ⟨ahead, found⟩
    rw [← same]
    exact le_of_hasEndAt rfl found ahead

theorem not_hasEndAt_of_back
    (stops : text.head?.any continuesWord = false)
    (nothing : (beforeEnd true text).back = [])
    (ahead : before.length ≤ place) :
    ¬ HasEndAt (before ++ text) place := by
  intro found
  have within := found.lt_length
  have whole := whole_beforeEnd true text
  rw [Cut.whole, nothing, List.append_nil] at whole
  rw [← beforeEnd_eq_of_head (!before.getLast?.any continuesWord) stops] at whole
  have bound := le_of_hasEndAt rfl found ahead
  rw [whole] at bound
  rw [List.length_append] at within
  omega

/-- Assembler text has no `END` of its own. -/
theorem not_hasEndAt_assemblerText
    (text : List Char)
    (place : Nat) :
    ¬ HasEndAt (assemblerText text).front place := by
  intro found
  have within := found.lt_length
  rw [← List.nil_append (assemblerText text).front] at found
  have bound := le_of_hasEndAt rfl found (Nat.zero_le _)
  change 0 + (beforeEnd true (assemblerText text).front).front.length ≤ place at bound
  rw [beforeEnd_assemblerText, Nat.zero_add] at bound
  exact Nat.not_le_of_lt within bound

/-- A text that starts with `END` is read as that word. -/
theorem read?_of_startsWithEnd
    (ends : startsWithEnd text = true) :
    ∃ cut, read? text = some ⟨.word .END, cut, []⟩ := by
  obtain ⟨rest, rfl, stops⟩ := startsWithEnd_iff.mp ends
  have taken : Cut.takeWhile continuesWord (['E', 'N', 'D'] ++ rest) = ⟨['E', 'N', 'D'], rest⟩ :=
    Cut.takeWhile_append (List.all_eq_true.mp rfl) stops
  have named : Word.ofSpelling? (String.ofList
      (Cut.takeWhile continuesWord ('E' :: 'N' :: 'D' :: rest)).front) = some .END := by
    rw [List.cons_append, List.cons_append, List.cons_append, List.nil_append] at taken
    rw [taken]
    rfl
  refine ⟨Cut.takeWhile continuesWord ('E' :: 'N' :: 'D' :: rest), ?_⟩
  rw [(Recognized.word ('N' :: 'D' :: rest) (by decide : startsWord 'E' = true)).read?_eq, word,
    named]

end

end Scan

/-- Characters that can be assembler text: no blank begins or ends them, and no `END` is in them. -/
structure Scan.IsAssembler (text : List Char) : Prop where
  head : text.head?.any isBlank = false
  last : text.getLast?.any isBlank = false
  unbroken : ∀ place, ¬ HasEndAt text place

theorem Scan.isAssembler_assemblerText
    {text : List Char}
    (bare : text.head?.any isBlank = false) :
    IsAssembler (assemblerText text).front := by
  have unbroken := not_hasEndAt_assemblerText text
  have cut := whole_assemblerText text
  obtain ⟨front, blanks, back, -, -, free, same⟩ := exists_assemblerText text
  rw [same] at unbroken cut ⊢
  refine ⟨?_, free, unbroken⟩
  rw [← cut] at bare
  cases front with
  | nil => rfl
  | cons c front => exact bare

/-- A token ends assembler text that lies between `CODE` and itself. -/
structure TokenStream.Encloses (stream : TokenStream) (code body closing : Token) : Prop where
  inside : Scan.IsAssembler (stream.sourceText body)
  closing :
    closing.symbol = .word .END ∧
        IsLeast {place | code.stop ≤ place ∧ Scan.HasEndAt stream.text place} closing.start ∨
      closing.symbol = .endOfFile ∧
        ∀ place, code.stop ≤ place → ¬ Scan.HasEndAt stream.text place

namespace Scanner

open Scan

variable
  {stream : TokenStream}
  {text : List Char}
  {scanner : Scanner}

/-- The scanner is in code exactly after `CODE`. -/
theorem inCode_next_iff (scanner : Scanner) :
    scanner.next.scanner.inCode = true ↔ scanner.next.lexeme.symbol = .word .CODE := by
  have step := advance_next scanner
  generalize scanner.next = next at step ⊢
  cases step with
  | token => exact beq_iff_eq
  | assembler => exact beq_iff_eq
  | stray => exact ⟨nofun, nofun⟩
  | unclosed => exact ⟨nofun, nofun⟩

/-- The scanner finds assembler text exactly if it is in code. -/
theorem symbol_next_eq_assembler_iff (scanner : Scanner) :
    scanner.next.lexeme.symbol = .assembler ↔ scanner.inCode = true := by
  have step := advance_next scanner
  generalize scanner.next = next at step ⊢
  cases step with
  | token _ _ _ found => exact ⟨fun same => absurd same (symbol_read?_ne_assembler found), nofun⟩
  | assembler => exact ⟨fun _ => rfl, fun _ => rfl⟩
  | stray => exact ⟨nofun, nofun⟩
  | unclosed => exact ⟨nofun, nofun⟩

/-- `CODE` is a whole word. -/
theorem head?_next_of_code
    (code : scanner.next.lexeme.symbol = .word .CODE) :
    scanner.next.scanner.rest.head?.any continuesWord = false := by
  have step := advance_next scanner
  generalize scanner.next = next at step code ⊢
  cases step with
  | token _ _ _ found => exact ((recognized_of_read? found).fits.word (.inr ⟨.CODE, code⟩)).2.1
  | assembler => cases code
  | stray => cases code
  | unclosed => cases code

/-- After assembler text the scanner finds what the search for an `END` has stopped at. -/
theorem next_tokenAt_assembler
    (start : Nat)
    (text : List Char) :
    let closing := (tokenAt start ⟨.assembler, assemblerText text, []⟩).scanner.next.lexeme
    (beforeEnd true text).back = [] ∧ closing.symbol = .endOfFile ∨
      (beforeEnd true text).back ≠ [] ∧ closing.symbol = .word .END ∧
        closing.token.start = toWord (start + (beforeEnd true text).front.length) := by
  obtain ⟨front, blanks, back, read, blank, -, same⟩ := exists_assemblerText text
  have ends := back_beforeEnd true text
  have skipped := Gap.of_blanks blank
  simp only [read, same, List.length_append] at ends ⊢
  have bare := startsGap_of_startsWithEnd ends
  rcases ends with rfl | ends
  · have step := Advance.stray (start + front.length) skipped bare rfl
    exact .inl ⟨rfl, congrArg (·.lexeme.symbol) step.next_eq⟩
  · obtain ⟨cut, found⟩ := read?_of_startsWithEnd ends
    have step := Advance.token (start + front.length) skipped bare found
    refine .inr ⟨?_, congrArg (·.lexeme.symbol) step.next_eq, ?_⟩
    · rintro rfl
      cases ends
    · rw [← Nat.add_assoc]
      exact congrArg (·.lexeme.token.start) step.next_eq

/-- After assembler text comes an `END` or the end of the file. -/
theorem isAssembler_next (inCode : scanner.inCode = true) :
    IsAssembler scanner.next.lexeme.text.toList ∧
      (scanner.next.scanner.next.lexeme.symbol = .word .END ∨
        scanner.next.scanner.next.lexeme.symbol = .endOfFile) := by
  have step := advance_next scanner
  generalize scanner.next = found at step ⊢
  cases step with
  | token => cases inCode
  | stray => cases inCode
  | unclosed => cases inCode
  | @assembler gap inner offset blank bare =>
    refine ⟨?_, ?_⟩
    · change IsAssembler (String.ofList (assemblerText inner).front).toList
      rw [String.toList_ofList]
      exact isAssembler_assemblerText bare
    · rcases next_tokenAt_assembler (offset + gap.length) inner with ⟨-, closes⟩ | ⟨-, closes, -⟩
      · exact .inr closes
      · exact .inl closes

/-- In a short text, assembler text is enclosed by the two tokens around it. -/
theorem encloses_next
    {code : Token}
    (short : stream.text.length < wordCount)
    (stands : scanner.Stands stream.text)
    (inCode : scanner.inCode = true)
    (stops : scanner.rest.head?.any continuesWord = false)
    (after : code.stop = scanner.offset) :
    stream.Encloses code scanner.next.lexeme.token scanner.next.scanner.next.lexeme.token := by
  obtain ⟨before, whole, place⟩ := stands
  have step := advance_next scanner
  generalize scanner.next = found at step ⊢
  cases step with
  | token => cases inCode
  | stray => cases inCode
  | unclosed => cases inCode
  | @assembler gap inner offset blank bare =>
    obtain rfl : offset = before.length := place
    replace stops : (gap ++ inner).head?.any continuesWord = false := stops
    replace whole : stream.text = before ++ (gap ++ inner) := whole
    replace after : code.stop = before.length := after
    have search := @beforeEnd_append_blanks gap inner blank
    refine ⟨?_, ?_⟩
    · have covered : stream.sourceText (tokenAt (before.length + gap.length)
          ⟨.assembler, assemblerText inner, []⟩).lexeme.token = (assemblerText inner).front := by
        rw [← List.length_append]
        refine TokenStream.sourceText_lexemeAt short ?_
        rw [whole_assemblerText inner, whole, List.append_assoc]
      rw [covered]
      exact isAssembler_assemblerText bare
    · rw [after, whole]
      rcases next_tokenAt_assembler (before.length + gap.length) inner with
        ⟨none, closes⟩ | ⟨more, closes, starts⟩
      · refine .inr ⟨closes, fun place ahead => ?_⟩
        exact not_hasEndAt_of_back stops (by rwa [search]) ahead
      · have least := @isLeast_beforeEnd before _ stops (by rwa [search])
        -- there is an `END`, so that its place is in the text and an offset
        have within := Nat.lt_trans least.1.2.lt_length (whole ▸ short)
        rw [search, Cut.after, List.length_append, ← Nat.add_assoc] at within least
        rw [toWord_of_lt within] at starts
        exact .inl ⟨closes, starts ▸ least⟩

theorem getElem?_run_zero (scanner : Scanner) :
    scanner.run[0]? = some scanner.next := by
  by_cases ends : scanner.next.lexeme.symbol = .endOfFile
  · rw [run_of_end ends]
    rfl
  · rw [run_of_token ends]
    rfl

theorem getElem?_run_succ
    (continues : scanner.next.lexeme.symbol ≠ .endOfFile)
    (index : Nat) :
    scanner.run[index + 1]? = scanner.next.scanner.run[index]? := by
  rw [run_of_token continues]
  rfl

/-- What comes from an index of a run on is the run of a scanner that stands there. -/
theorem exists_run_eq_drop
    {index : Nat}
    {step : Scanned}
    (stands : scanner.Stands text)
    (found : scanner.run[index]? = some step) :
    ∃ place : Scanner, place.Stands text ∧ scanner.run.drop index = place.run ∧
      place.next = step := by
  induction index generalizing scanner with
  | zero =>
    refine ⟨scanner, stands, rfl, ?_⟩
    exact Option.some.inj ((getElem?_run_zero scanner).symm.trans found)
  | succ index ih =>
    by_cases ends : scanner.next.lexeme.symbol = .endOfFile
    · rw [run_of_end ends] at found
      cases found
    · rw [getElem?_run_succ ends] at found
      rw [run_of_token ends, List.drop_succ_cons]
      exact ih (steps_next stands).stands found

end Scanner

/-- Assembler text comes after `CODE` and nowhere else, and before an `END` or the end of the
file. -/
structure TokenStream.Enclosed (stream : TokenStream) : Prop where
  after : ∀ index code, stream.token? index = some code → code.symbol = .word .CODE →
    ∃ body closing, stream.token? (index + 1) = some body ∧ body.symbol = .assembler ∧
      Scan.IsAssembler (stream.lexemeText (index + 1)).toList ∧
      stream.token? (index + 2) = some closing ∧
      (closing.symbol = .word .END ∨ closing.symbol = .endOfFile)
  only : ∀ index body, stream.token? index = some body → body.symbol = .assembler →
    ∃ previous code, index = previous + 1 ∧ stream.token? previous = some code ∧
      code.symbol = .word .CODE

/-- What assembler text covers lies between `CODE` and the first `END` after it. -/
def TokenStream.EnclosesAll (stream : TokenStream) : Prop :=
  ∀ index code body closing, stream.token? index = some code → code.symbol = .word .CODE →
    stream.token? (index + 1) = some body → stream.token? (index + 2) = some closing →
    stream.Encloses code body closing

namespace TokenStream

variable
  {name : String}
  {text : List Char}
  {index : Nat}

theorem lexemes_ofText_getElem? :
    (ofText name text).lexemes[index]? = (Scanner.ofText text).run[index]?.map (·.lexeme) := by
  rw [ofText, List.getElem?_map]

theorem token?_ofText :
    (ofText name text).token? index =
      (Scanner.ofText text).run[index]?.map (·.lexeme.token) := by
  rw [token?, lexemes_ofText_getElem?, Option.map_map]
  rfl

/-- A token is found from a place of the text, and so are the lexemes after it. -/
theorem exists_of_token?
    {token : Token}
    (found : (ofText name text).token? index = some token) :
    ∃ place : Scanner, place.Stands text ∧ place.next.lexeme.token = token ∧
      ∀ more, (ofText name text).lexemes[index + more]? = place.run[more]?.map (·.lexeme) := by
  rw [token?_ofText] at found
  obtain ⟨step, among, rfl⟩ := Option.map_eq_some_iff.mp found
  obtain ⟨place, stands, same, rfl⟩ :=
    Scanner.exists_run_eq_drop (Scanner.stands_ofText text) among
  refine ⟨place, stands, rfl, ?_⟩
  intro more
  rw [lexemes_ofText_getElem?, ← same, List.getElem?_drop]

/-- After a `CODE` come the lexemes that are found from the place behind it. -/
theorem exists_of_code
    {code : Token}
    (found : (ofText name text).token? index = some code)
    (isCode : code.symbol = .word .CODE) :
    ∃ place : Scanner, place.Stands text ∧ place.next.lexeme.token = code ∧
      place.next.scanner.inCode = true ∧
      (ofText name text).lexemes[index + 1]? = some place.next.scanner.next.lexeme ∧
      (ofText name text).lexemes[index + 2]? =
        some place.next.scanner.next.scanner.next.lexeme := by
  obtain ⟨place, stands, rfl, others⟩ := exists_of_token? found
  have inCode := (Scanner.inCode_next_iff place).mpr isCode
  have continues : place.next.lexeme.symbol ≠ .endOfFile := by
    intro ends
    cases ends.symm.trans isCode
  have goesOn : place.next.scanner.next.lexeme.symbol ≠ .endOfFile := by
    intro ends
    cases ends.symm.trans ((Scanner.symbol_next_eq_assembler_iff _).mpr inCode)
  refine ⟨place, stands, rfl, inCode, ?_, ?_⟩
  · rw [others, Scanner.getElem?_run_succ continues, Scanner.getElem?_run_zero]
    rfl
  · rw [others, Scanner.getElem?_run_succ continues, Scanner.getElem?_run_succ goesOn,
      Scanner.getElem?_run_zero]
    rfl

/-- Before a token that is not the first stands another one, from which it is found. -/
theorem exists_before_token?
    {token : Token}
    (found : (ofText name text).token? (index + 1) = some token) :
    ∃ place : Scanner, (ofText name text).token? index = some place.next.lexeme.token ∧
      place.next.scanner.next.lexeme.token = token := by
  have within : index < (ofText name text).lexemes.length := by
    obtain ⟨lexeme, listed, -⟩ := Option.map_eq_some_iff.mp found
    obtain ⟨bound, -⟩ := List.getElem?_eq_some_iff.mp listed
    exact Nat.lt_of_succ_lt bound
  have before : (ofText name text).token? index = some (ofText name text).lexemes[index].token := by
    rw [token?, List.getElem?_eq_getElem within]
    rfl
  obtain ⟨place, -, same, others⟩ := exists_of_token? before
  refine ⟨place, same ▸ before, ?_⟩
  rw [token?, others, Option.map_map] at found
  by_cases ends : place.next.lexeme.symbol = .endOfFile
  · rw [Scanner.run_of_end ends] at found
    cases found
  · rw [Scanner.getElem?_run_succ ends, Scanner.getElem?_run_zero] at found
    exact Option.some.inj found

/-- Scanning a text encloses all assembler text. -/
theorem enclosed_ofText
    (name : String)
    (text : List Char) :
    (ofText name text).Enclosed := by
  constructor
  · intro index code found isCode
    obtain ⟨place, -, -, inCode, body, closing⟩ := exists_of_code found isCode
    obtain ⟨inside, closes⟩ := Scanner.isAssembler_next inCode
    refine ⟨_, _, ?_, (Scanner.symbol_next_eq_assembler_iff _).mpr inCode, ?_, ?_, closes⟩
    · rw [token?, body]
      rfl
    · rw [lexemeText, body]
      exact inside
    · rw [token?, closing]
      rfl
  · intro index body found assembler
    cases index with
    | zero =>
      rw [token?_ofText, Scanner.getElem?_run_zero] at found
      cases found
      cases (Scanner.symbol_next_eq_assembler_iff _).mp assembler
    | succ previous =>
      obtain ⟨place, before, rfl⟩ := exists_before_token? found
      have inCode := (Scanner.symbol_next_eq_assembler_iff _).mp assembler
      exact ⟨previous, _, rfl, before, (Scanner.inCode_next_iff place).mp inCode⟩

/-- In a short text, the token after assembler text is the first `END` after `CODE`. -/
theorem enclosesAll_ofText
    (name : String)
    (short : text.length < wordCount) :
    (ofText name text).EnclosesAll := by
  intro index code body closing found isCode next last
  obtain ⟨place, stands, rfl, inCode, inside, closes⟩ := exists_of_code found isCode
  rw [token?, inside] at next
  rw [token?, closes] at last
  obtain rfl := Option.some.inj next
  obtain rfl := Option.some.inj last
  have steps := Scanner.steps_next stands
  exact Scanner.encloses_next short steps.stands inCode (Scanner.head?_next_of_code isCode)
    (steps.resumes short).symm

/-- The text may contain words that begin or end like `END`. -/
example : (ofText "M" "CODE BEND ENDS END".toList).tokens =
    [⟨.word .CODE, 0, 4⟩, ⟨.assembler, 5, 14⟩, ⟨.word .END, 15, 18⟩, .endAt 18] := by
  decide +kernel

end TokenStream

end Oberon
