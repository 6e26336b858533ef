import Oberon.Proofs.Enclosure
import Oberon.Proofs.Standalone

/-!
# Scanner and parser agree about assembler text

The scanner delivers assembler text after `CODE` and nowhere else.  The grammar asks for it in the
same places: assembler text is due after a token `CODE`, and a production that is begun when it is
not due leaves off when it is not due either (`Production.leaves`).  Parsing therefore never meets
assembler text that it does not ask for, and never misses any (`Parser.Keeps`).

A `CODE` statement has all of its tokens up to the `END`, so that only the end of the file can be
found in the place of that.
-/

namespace Oberon

/-- In a list of symbols, assembler text comes first if it is due, and otherwise exactly after
`CODE`. -/
def Symbol.Coded : Bool → List Symbol → Prop
  | due, [] => due = false
  | due, symbol :: rest => (symbol = .assembler ↔ due = true) ∧ Coded (symbol == .word .CODE) rest

theorem Symbol.coded_of_getElem?
    {due : Bool}
    {symbols : List Symbol}
    (first : symbols[0]? = some .assembler ↔ due = true)
    (later : ∀ index, symbols[index]? = some (.word .CODE) ↔
      symbols[index + 1]? = some .assembler) :
    Coded due symbols := by
  induction symbols generalizing due with
  | nil => simpa [Coded] using first
  | cons symbol rest ih =>
    refine ⟨by simpa using first, ih ?_ ?_⟩
    · rw [beq_iff_eq]
      simpa [eq_comm] using (later 0).symm
    · intro index
      exact later (index + 1)

/-- The lexemes that come next begin with assembler text if it is due. -/
def Cursor.Codes (due : Bool) (cursor : Cursor) : Prop :=
  Symbol.Coded due (cursor.rest.map (·.symbol))

/-- A complaint that does not mention assembler text. -/
structure Violation.Spares (violation : Violation) : Prop where
  found : violation.found.symbol ≠ .assembler
  expected : .assembler ∉ violation.reason.expected

/-- The next symbol is assembler text exactly if that is due. -/
theorem Cursor.Codes.symbol_iff
    {due : Bool}
    {cursor : Cursor}
    (h : cursor.Codes due) :
    cursor.symbol = .assembler ↔ due = true := by
  obtain ⟨rest, stop, reached⟩ := cursor
  cases rest with
  | nil =>
    obtain rfl : due = false := h
    exact ⟨nofun, nofun⟩
  | cons lexeme rest => exact h.1

/-- Without the end of the file, which is never due, assembler text is where it was. -/
theorem Symbol.coded_of_append
    {due : Bool}
    {symbols : List Symbol}
    (h : Coded due (symbols ++ [.endOfFile])) :
    Coded due symbols := by
  induction symbols generalizing due with
  | nil => simpa [Coded] using h.1
  | cons symbol rest ih => exact ⟨h.1, ih h.2⟩

theorem TokenStream.Enclosed.coded
    {stream : TokenStream}
    (h : stream.Enclosed) :
    Symbol.Coded false (stream.lexemes.map (·.symbol)) := by
  have symbol : ∀ index, (stream.lexemes.map (·.symbol))[index]? =
      (stream.token? index).map (·.symbol) := by
    intro index
    rw [token?, List.getElem?_map, Option.map_map]
    rfl
  refine Symbol.coded_of_getElem? ?_ fun index => ?_
  · simp only [symbol, Option.map_eq_some_iff, Bool.false_eq_true, iff_false]
    rintro ⟨body, found, assembler⟩
    obtain ⟨previous, -, impossible, -⟩ := h.only 0 body found assembler
    cases impossible
  · simp only [symbol, Option.map_eq_some_iff]
    constructor
    · rintro ⟨code, found, isCode⟩
      obtain ⟨body, -, next, assembler, -⟩ := h.after index code found isCode
      exact ⟨body, next, assembler⟩
    · rintro ⟨body, found, assembler⟩
      obtain ⟨previous, code, same, before, isCode⟩ := h.only (index + 1) body found assembler
      obtain rfl := Nat.succ.inj same
      exact ⟨code, before, isCode⟩

/-- At the beginning of a stream no assembler text is due. -/
theorem TokenStream.codes_ofStream
    (name : String)
    (text : List Char) :
    (Cursor.ofStream (.ofText name text)).Codes false := by
  have coded := (enclosed_ofText name text).coded
  have upcoming := (Cursor.at_ofStream name text).upcoming
  rw [List.drop_zero] at upcoming
  rw [← upcoming, Cursor.upcoming, List.map_append] at coded
  exact Symbol.coded_of_append coded

namespace Parser

variable
  {α β : Type}
  {before middle after : Bool}

/-- A result at a place where assembler text is due or not, or a complaint that does not mention
it. -/
def Lands (due : Bool) : EStateM.Result Violation Cursor α → Prop
  | .ok _ next => next.Codes due
  | .error violation _ => violation.Spares

/-- From where assembler text is due or not, a parser comes to where it is due or not. -/
def Keeps (before after : Bool) (parser : Parser α) : Prop :=
  ∀ cursor : Cursor, cursor.Codes before → Lands after (parser cursor)

theorem keeps_pure
    (due : Bool)
    (value : α) :
    Keeps due due (pure value : Parser α) :=
  fun _ codes => codes

theorem keeps_bind
    {first : Parser α}
    {next : α → Parser β}
    (head : Keeps before middle first)
    (rest : ∀ value, Keeps middle after (next value)) :
    Keeps before after (first >>= next) := by
  intro cursor codes
  have here := head cursor codes
  revert here
  simp only [bind, EStateM.bind]
  cases first cursor with
  | ok value stop => exact rest value stop
  | error violation stop => exact id

theorem keeps_get_bind
    {next : Cursor → Parser β}
    (rest : ∀ cursor, Keeps before after (next cursor)) :
    Keeps before after (get >>= next) :=
  fun cursor codes => rest cursor cursor codes

theorem keeps_peek_bind
    {next : Symbol → Parser β}
    (rest : ∀ symbol, Keeps before after (next symbol)) :
    Keeps before after (peek >>= next) :=
  fun cursor codes => rest cursor.symbol cursor codes

theorem keeps_fail
    {reason : Reason}
    (spares : .assembler ∉ reason.expected) :
    Keeps false after (fail reason : Parser α) := by
  intro cursor codes
  exact ⟨fun same => Bool.false_ne_true (codes.symbol_iff.mp same), spares⟩

/-- Where no assembler text is due, a token is taken after which it is due if it is `CODE`. -/
theorem keeps_token
    {test : Symbol → Bool}
    {reason : Reason}
    (spares : .assembler ∉ reason.expected)
    (leaves : ∀ symbol, test symbol = true → (symbol == .word .CODE) = after) :
    Keeps false after (token test reason) := by
  rintro ⟨rest, stop, reached⟩ codes
  have other : Cursor.symbol ⟨rest, stop, reached⟩ ≠ .assembler :=
    fun same => Bool.false_ne_true (codes.symbol_iff.mp same)
  cases rest with
  | nil => exact ⟨other, spares⟩
  | cons lexeme rest =>
    simp only [token]
    split
    · rename_i fits
      rw [← leaves _ fits]
      exact codes.2
    · exact ⟨other, spares⟩

/-- Where assembler text is due, it is taken. -/
theorem keeps_assembler
    {test : Symbol → Bool}
    (reason : Reason)
    (fits : test .assembler = true) :
    Keeps true false (token test reason) := by
  rintro ⟨rest, stop, reached⟩ codes
  cases rest with
  | nil => cases codes
  | cons lexeme rest =>
    have same : lexeme.symbol = .assembler := codes.1.mpr rfl
    have behind : Symbol.Coded (lexeme.symbol == .word .CODE) (rest.map (·.symbol)) := codes.2
    simp only [token, same, fits, if_true]
    rwa [same] at behind

theorem keeps_iterate
    {step : Parser (List α × Bool)}
    (steps : Keeps before before step) :
    Keeps before before (iterate step) := by
  intro cursor codes
  induction size : cursor.rest.length using Nat.strongRecOn generalizing cursor with
  | ind size ih =>
    subst size
    have here := steps cursor codes
    rw [iterate]
    revert here
    cases step cursor with
    | error violation stop => exact id
    | ok pair stop =>
      obtain ⟨done, again⟩ := pair
      intro here
      simp only
      split
      · rename_i progress
        have later := ih _ progress.2 stop here rfl
        cases found : iterate step stop <;> rwa [found] at later
      · exact here

end Parser

namespace Production

/-- Whether assembler text is due after a production that begins where it is due or not.  Undefined
if the production could ask for it when it is not due, or for something else when it is. -/
def leaves : {yield : Yield} → (due : Bool) → Production yield → Option Bool
  | _, due, .empty => some due
  | _, true, .token _ symbols _ => if .assembler ∈ symbols then some false else none
  | _, false, .token _ symbols reason =>
    if .assembler ∉ reason.expected ∧ (symbols = [.word .CODE] ∨ .word .CODE ∉ symbols) then
      some (.word .CODE ∈ symbols)
    else none
  | _, due, .gap _ => some due
  | _, due, .fail reason =>
    if due = false ∧ .assembler ∉ reason.expected then some false else none
  | _, due, .seq first second => (first.leaves due).bind fun middle => second.leaves middle
  | _, due, .branch _ first second =>
    if first.leaves due = second.leaves due then first.leaves due else none
  | _, due, .many _ item => if item.leaves due = some due then some due else none
  | _, due, .tail separator _ _ _ exit item =>
    if due = false ∧ separator ≠ .assembler ∧ separator ≠ .word .CODE ∧
        exit.leaves false = some false ∧ item.leaves false = some false then
      some false
    else none
  | _, due, .part _ construct => construct.leaves due
  | _, due, .assemble _ parts => parts.leaves due
  | _, due, .deeper _ => if due = false then some false else none
  | _, due, .reclaim body closing =>
    if body.leaves due = some false ∧ closing.leaves false = some false then some false else none

open Oberon.Parser

/-- A production that asks for assembler text where it is due, and nowhere else, keeps to that if
the constructs one level deeper do. -/
theorem keeps_run
    {below : Level → Parser Tree}
    (levels : ∀ level, Keeps false false (below level))
    {yield : Yield}
    {production : Production yield}
    {before after : Bool}
    (h : production.leaves before = some after) :
    Keeps before after (production.run below) := by
  induction production generalizing before after with
  | empty =>
    obtain rfl := Option.some.inj h
    exact keeps_pure _ _
  | token role symbols reason =>
    have taken : Keeps before after (Parser.token (· ∈ symbols) reason) := by
      cases before with
      | true =>
        obtain ⟨fits, same⟩ := Option.ite_none_right_eq_some.mp h
        obtain rfl := Option.some.inj same
        exact keeps_assembler reason (decide_eq_true fits)
      | false =>
        obtain ⟨⟨spares, alone⟩, same⟩ := Option.ite_none_right_eq_some.mp h
        obtain rfl := Option.some.inj same
        refine keeps_token spares fun symbol fits => ?_
        have listed : symbol ∈ symbols := of_decide_eq_true fits
        rcases alone with rfl | absent
        · simp [List.mem_singleton.mp listed]
        · have other : symbol ≠ .word .CODE := ne_of_mem_of_not_mem listed absent
          simp [other, absent]
    exact keeps_bind taken fun lexeme => keeps_pure _ _
  | gap role =>
    obtain rfl := Option.some.inj h
    exact keeps_pure _ _
  | fail reason =>
    obtain ⟨⟨rfl, spares⟩, -⟩ := Option.ite_none_right_eq_some.mp h
    exact keeps_fail spares
  | seq first second left right =>
    obtain ⟨middle, head, others⟩ := Option.bind_eq_some_iff.mp h
    exact keeps_bind (left head) fun front => keeps_bind (right others) fun back => keeps_pure _ _
  | branch starts first second left right =>
    obtain ⟨same, one⟩ := Option.ite_none_right_eq_some.mp h
    refine keeps_peek_bind fun symbol => ?_
    split
    · exact left one
    · exact right (same ▸ one)
  | many starts item ih =>
    obtain ⟨items, same⟩ := Option.ite_none_right_eq_some.mp h
    obtain rfl := Option.some.inj same
    refine keeps_iterate (keeps_peek_bind fun symbol => ?_)
    split
    · exact keeps_bind (ih items) fun trees => keeps_pure _ _
    · exact keeps_pure _ _
  | tail separator role stops exitRole exit item exits items =>
    obtain ⟨⟨rfl, other, noCode, out, more⟩, same⟩ := Option.ite_none_right_eq_some.mp h
    obtain rfl := Option.some.inj same
    have taken : Keeps false false
        (Parser.token (· = separator) (.missing separator "list")) := by
      refine keeps_token ?_ fun symbol fits => ?_
      · simpa [Reason.expected] using other.symm
      · rw [of_decide_eq_true fits]
        exact beq_false_of_ne noCode
    refine keeps_iterate (keeps_peek_bind fun symbol => ?_)
    split
    · refine keeps_bind taken fun lexeme => keeps_peek_bind fun symbol => ?_
      split
      · exact keeps_bind (exits out) fun trees => keeps_pure _ _
      · exact keeps_bind (items more) fun trees => keeps_pure _ _
    · exact keeps_pure _ _
  | part role construct ih => exact keeps_bind (ih h) fun tree => keeps_pure _ _
  | assemble assembly parts ih =>
    exact keeps_get_bind fun cursor => keeps_bind (ih h) fun trees =>
      keeps_get_bind fun after => keeps_pure _ _
  | deeper level =>
    obtain ⟨rfl, same⟩ := Option.ite_none_right_eq_some.mp h
    obtain rfl := Option.some.inj same
    exact levels level
  | reclaim body closing inner last =>
    obtain ⟨⟨head, others⟩, same⟩ := Option.ite_none_right_eq_some.mp h
    obtain rfl := Option.some.inj same
    refine keeps_bind (inner head) fun trees => keeps_peek_bind fun symbol => ?_
    cases (if symbol = .word .END then none else Tree.reclaimEnd? trees) with
    | some reclaimed => exact keeps_pure _ _
    | none => exact keeps_bind (last others) fun back => keeps_pure _ _

end Production

theorem Level.leaves_production (level : Level) :
    level.production.leaves false = some false := by
  cases level <;> decide +kernel

theorem Level.keeps_parse
    (budget : Nat)
    (level : Level) :
    Parser.Keeps false false (Level.parse budget level) := by
  induction budget generalizing level with
  | zero => exact Parser.keeps_fail List.not_mem_nil
  | succ budget ih => exact Production.keeps_run ih level.leaves_production

/-- Parsing a module meets assembler text only where it asks for it. -/
theorem keeps_parseModule : Parser.Keeps false false parseModule := by
  have leaves : Rule.moduleUnit.production.leaves false = some false := by
    decide +kernel
  refine Parser.keeps_bind (Production.keeps_run (Level.keeps_parse _) leaves) fun tree =>
    Parser.keeps_bind ?_ fun _ => Parser.keeps_pure _ _
  rintro ⟨rest, stop, reached⟩ codes
  cases rest with
  | nil => exact codes
  | cons lexeme rest =>
    have other : lexeme.symbol ≠ .assembler :=
      fun same => Bool.false_ne_true (codes.1.mp same)
    exact ⟨other, by simp [Reason.expected]⟩

namespace Cursor.Faces

variable
  {stream : TokenStream}
  {index : Nat}
  {cursor : Cursor}

theorem token?_add
    (h : cursor.Faces stream index)
    (more : Nat) :
    stream.token? (index + more) = cursor.upcoming[more]?.map (·.token) := by
  rw [TokenStream.token?, h.upcoming, List.getElem?_drop]

/-- After `CODE` come assembler text and then an `END` or the end of the file. -/
theorem exists_of_code
    (enclosed : stream.Enclosed)
    (h : cursor.Faces stream index)
    (isCode : cursor.symbol = .word .CODE) :
    ∃ code body rest, cursor.rest = code :: body :: rest ∧ body.symbol = .assembler ∧
      (symbol ⟨rest, cursor.stop, body.token.stop⟩ = .word .END ∨
        symbol ⟨rest, cursor.stop, body.token.stop⟩ = .endOfFile) := by
  obtain ⟨body, closing, next, assembler, -, last, closes⟩ :=
    enclosed.after index cursor.token h.token?_eq isCode
  rw [h.token?_add] at next last
  obtain ⟨rest, stop, reached⟩ := cursor
  match rest with
  | [] => cases isCode
  | [code] =>
    obtain rfl := Option.some.inj next
    cases assembler
  | code :: lexeme :: rest =>
    obtain rfl := Option.some.inj next
    refine ⟨code, lexeme, rest, rfl, assembler, ?_⟩
    cases rest with
    | nil => exact .inr rfl
    | cons other others =>
      obtain rfl := Option.some.inj last
      exact closes

end Cursor.Faces

namespace Parser

variable
  {α β : Type}
  {cursor after : Cursor}
  {violation : Violation}

@[simp] theorem pure_ne_error (value : α) :
    (pure value : Parser α) cursor ≠ .error violation after := by
  simp [pure, EStateM.pure]

@[simp] theorem bind_eq_error_iff
    {first : Parser α}
    {next : α → Parser β} :
    (first >>= next) cursor = .error violation after ↔
      first cursor = .error violation after ∨
        ∃ value middle, first cursor = .ok value middle ∧
          next value middle = .error violation after := by
  simp only [bind, EStateM.bind]
  cases first cursor <;> simp

@[simp] theorem get_ne_error :
    (get : Parser Cursor) cursor ≠ .error violation after :=
  fun impossible => nomatch (impossible : EStateM.Result.ok cursor cursor = _)

theorem token_eq_error_iff
    {test : Symbol → Bool}
    {reason : Reason} :
    token test reason cursor = .error violation after ↔
      violation = ⟨cursor.token, reason⟩ ∧ after = cursor ∧
        (cursor.rest = [] ∨ test cursor.symbol = false) := by
  obtain ⟨rest, stop, reached⟩ := cursor
  cases rest with
  | nil =>
    rw [token]
    simp [@eq_comm _ violation, @eq_comm _ after]
  | cons lexeme rest =>
    rw [token, Cursor.symbol_of_rest rfl]
    cases fits : test lexeme.symbol <;> simp [fits, @eq_comm _ violation, @eq_comm _ after]

end Parser

namespace Production

variable
  {budget : Nat}
  {cursor middle after : Cursor}
  {violation : Violation}
  {front : List Tree}

/-- A token complains about the one that stands in its place. -/
theorem run_token_eq_error_iff
    {below : Level → Parser Tree}
    {role : Role}
    {symbols : List Symbol}
    {reason : Reason} :
    (Production.token role symbols reason).run below cursor = .error violation after ↔
      violation = ⟨cursor.token, reason⟩ ∧ after = cursor ∧
        (cursor.rest = [] ∨ cursor.symbol ∉ symbols) := by
  simp [run, -bind_pure_comp, Parser.token_eq_error_iff]

theorem run_seq_eq_error_iff
    {below : Level → Parser Tree}
    {first second : Production .parts} :
    (Production.seq first second).run below cursor = .error violation after ↔
      first.run below cursor = .error violation after ∨
        ∃ front middle, first.run below cursor = .ok front middle ∧
          second.run below middle = .error violation after := by
  simp [run, -bind_pure_comp]

theorem run_assemble_eq_error_iff
    {below : Level → Parser Tree}
    {assembly : Assembly}
    {parts : Production .parts} :
    (Production.assemble assembly parts).run below cursor = .error violation after ↔
      parts.run below cursor = .error violation after := by
  simp [run, -bind_pure_comp]

/-- After what has been read, only the rest can fail. -/
theorem Reads.run_seq_eq_error
    {first second : Production .parts}
    (head : Reads budget first cursor front middle)
    (failed : (Production.seq first second).run (Level.parse budget) cursor =
      .error violation after) :
    second.run (Level.parse budget) middle = .error violation after := by
  have parsed := run_eq_ok_iff.mpr head
  rcases run_seq_eq_error_iff.mp failed with before | ⟨_, _, again, behind⟩
  · exact nomatch parsed.symm.trans before
  · cases parsed.symm.trans again
    exact behind

end Production

namespace Grammar

variable
  {budget : Nat}
  {cursor after : Cursor}
  {violation : Violation}

/-- A `CODE` statement that has its assembler text, and after that an `END` or the end of the file,
fails in the place of the `END` only. -/
theorem inlineAssembler_eq_error
    {code body : Lexeme}
    {rest : List Lexeme}
    (lexemes : cursor.rest = code :: body :: rest)
    (isCode : code.symbol = .word .CODE)
    (assembler : body.symbol = .assembler)
    (closes : Cursor.symbol ⟨rest, cursor.stop, body.token.stop⟩ = .word .END ∨
      Cursor.symbol ⟨rest, cursor.stop, body.token.stop⟩ = .endOfFile)
    (failed : inlineAssembler.run (Level.parse budget) cursor = .error violation after) :
    violation.found.symbol = .endOfFile := by
  obtain ⟨_, stop, reached⟩ := cursor
  obtain rfl := lexemes
  have parts := Production.run_assemble_eq_error_iff.mp failed
  have text := Production.Reads.run_seq_eq_error
    (.token (List.mem_singleton.mpr isCode)) parts
  have ending := Production.Reads.run_seq_eq_error
    (.part (.assemble (.seq (.token (List.mem_singleton.mpr assembler)) .empty))) text
  rcases Production.run_seq_eq_error_iff.mp ending with missing | ⟨_, _, -, impossible⟩
  · obtain ⟨rfl, -, other⟩ := Production.run_token_eq_error_iff.mp missing
    rcases closes with found | found
    · rcases other with nothing | wrong
      · cases found.symm.trans (Cursor.symbol_of_rest_nil nothing)
      · exact absurd (List.mem_singleton.mpr found) wrong
    · exact found
  · exact absurd impossible (Parser.pure_ne_error _)

/-- A statement that begins with `CODE` is a `CODE` statement. -/
theorem statementBody_of_code
    (isCode : cursor.symbol = .word .CODE) :
    statementBody.run (Level.parse budget) cursor =
      inlineAssembler.run (Level.parse budget) cursor := by
  simp [statementBody, Production.choose, Production.run_branch_eq, isCode, statementFollow]

end Grammar

theorem Parsed.exists_of_result_eq_error
    {stream : TokenStream}
    {violation : Violation}
    (h : (Parsed.ofStream stream).result = .error violation) :
    ∃ after, parseModule (.ofStream stream) = .error violation after := by
  unfold ofStream at h
  split at h
  · cases h
  · rename_i after failed
    cases h
    exact ⟨after, failed⟩

end Oberon
