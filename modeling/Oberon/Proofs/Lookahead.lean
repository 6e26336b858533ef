import Oberon.Proofs.Place

/-!
# Lookahead

Parsing depends on the tokens up to the one at which it ends, and on no other.  This is stated for
any two closed lists of lexemes (`Buffer`) that agree up to some index (`Buffer.Agrees`): a parser
that looks ahead by one token (`Parser.Local`) gives the same result on both and ends at the same
index.  It never moves backwards or beyond the end of the file, and it complains about nothing but
the token at which it ends.

Consuming a token and looking at the next one are local, and sequences and loops of local parsers
are.  By induction on productions and on the levels that are left, so is every rule
(`Rule.parseWithin_local`), whether it succeeds or fails.
-/

namespace Oberon

/-- Lexemes that the end of the file closes. -/
structure Buffer where
  lexemes : List Lexeme
  stop : Nat
  inner : ∀ lexeme ∈ lexemes, lexeme.symbol ≠ .endOfFile

namespace Buffer

/-- The lexemes with the end of the file. -/
def closed (buffer : Buffer) : List Lexeme := buffer.lexemes ++ [⟨.endAt buffer.stop, ""⟩]

/-- The cursor before the lexeme at an index, where the last consumed token ended at an offset. -/
def cursor (buffer : Buffer) (index reached : Nat) : Cursor :=
  ⟨buffer.lexemes.drop index, buffer.stop, reached⟩

/-- Two buffers have the same lexemes at an index and before it. -/
def Agrees (buffer other : Buffer) (index : Nat) : Prop :=
  ∀ earlier ≤ index, other.closed[earlier]? = buffer.closed[earlier]?

/-- The beginning of a buffer. -/
theorem ofLexemes_closed (buffer : Buffer) : Cursor.ofLexemes buffer.closed = buffer.cursor 0 0 :=
  Cursor.ofLexemes_append_end buffer.inner rfl

/-- The lexemes of a source are a buffer. -/
theorem exists_closed_eq (source : Source) :
    ∃ buffer : Buffer, buffer.closed = (TokenStream.ofSource source).lexemes := by
  obtain ⟨front, stop, closed, inner⟩ := TokenStream.closed_lexemes source.name source.text
  exact ⟨⟨front, stop, inner⟩, closed.symm⟩

variable
  {buffer other : Buffer}
  {index last : Nat}

theorem length_closed (buffer : Buffer) : buffer.closed.length = buffer.lexemes.length + 1 := by
  rw [closed, List.length_append, List.length_singleton]

theorem length_rest_cursor
    (buffer : Buffer)
    (index reached : Nat) :
    (buffer.cursor index reached).rest.length = buffer.lexemes.length - index :=
  List.length_drop

/-- The next lexeme of a cursor is the one at its index. -/
theorem getElem?_closed
    (within : index ≤ buffer.lexemes.length)
    (reached : Nat) :
    buffer.closed[index]? = some (buffer.cursor index reached).next := by
  rw [← List.head?_drop, closed, List.drop_append_of_le_length within]
  cases ahead : buffer.lexemes.drop index with
  | nil => simp [Cursor.next, cursor, ahead]
  | cons lexeme rest => simp [Cursor.next, cursor, ahead]

/-- A cursor is at the end of the file or at another lexeme. -/
theorem rest_cursor
    (buffer : Buffer)
    (within : index ≤ buffer.lexemes.length)
    (reached : Nat) :
    index = buffer.lexemes.length ∧ (buffer.cursor index reached).rest = [] ∨
      index < buffer.lexemes.length ∧ ∃ lexeme, lexeme.symbol ≠ .endOfFile ∧
        (buffer.cursor index reached).rest = lexeme :: buffer.lexemes.drop (index + 1) := by
  rcases Nat.eq_or_lt_of_le within with rfl | more
  · exact .inl ⟨rfl, List.drop_length⟩
  · refine .inr ⟨more, buffer.lexemes[index], buffer.inner _ (List.getElem_mem more), ?_⟩
    exact List.drop_eq_getElem_cons more

theorem Agrees.refl (buffer : Buffer) (index : Nat) : buffer.Agrees buffer index :=
  fun _ _ => rfl

theorem Agrees.mono
    (h : buffer.Agrees other last)
    (before : index ≤ last) :
    buffer.Agrees other index :=
  fun earlier le => h earlier (Nat.le_trans le before)

/-- A buffer that agrees up to an index reaches up to it. -/
theorem Agrees.within
    (h : buffer.Agrees other last)
    (within : last ≤ buffer.lexemes.length) :
    last ≤ other.lexemes.length := by
  have found := (h last (Nat.le_refl _)).trans (getElem?_closed within 0)
  obtain ⟨bound, -⟩ := List.getElem?_eq_some_iff.mp found
  rw [length_closed] at bound
  exact Nat.le_of_lt_succ bound

/-- Cursors at the same index of buffers that agree have the same next lexeme. -/
theorem Agrees.next_eq
    (h : buffer.Agrees other index)
    (within : index ≤ buffer.lexemes.length)
    (reached : Nat) :
    (other.cursor index reached).next = (buffer.cursor index reached).next := by
  refine Option.some.inj ?_
  rw [← getElem?_closed (h.within within), ← getElem?_closed within]
  exact h index (Nat.le_refl _)

end Buffer

namespace Parser

variable {α β : Type}

/-- The result of a parser, and the place at which it ends. -/
def outcome (parser : Parser α) (cursor : Cursor) : Except Violation α × Cursor :=
  match parser cursor with
  | .ok value after => (.ok value, after)
  | .error violation after => (.error violation, after)

theorem outcome_bind
    (first : Parser α)
    (next : α → Parser β)
    (cursor : Cursor) :
    (first >>= next).outcome cursor =
      match first.outcome cursor with
      | (.ok value, middle) => (next value).outcome middle
      | (.error violation, middle) => (.error violation, middle) := by
  simp only [outcome, bind, EStateM.bind]
  cases first cursor <;> rfl

/-- From one index of a buffer, a parser comes to a result and to another index, looking at no token
beyond it. -/
structure Settles (parser : Parser α) (buffer : Buffer) (index reached : Nat)
    (result : Except Violation α) (last reached' : Nat) : Prop where
  forward : index ≤ last
  within : last ≤ buffer.lexemes.length
  blames : ∀ violation, result = .error violation →
    buffer.closed[last]?.map (·.token) = some violation.found
  same : ∀ other : Buffer, buffer.Agrees other last →
    parser.outcome (other.cursor index reached) = (result, other.cursor last reached')

namespace Settles

variable
  {parser : Parser α}
  {buffer : Buffer}
  {index reached last reached' : Nat}

/-- Coming to a value is no complaint. -/
theorem of_value
    {value : α}
    (forward : index ≤ last)
    (within : last ≤ buffer.lexemes.length)
    (same : ∀ other : Buffer, buffer.Agrees other last →
      parser.outcome (other.cursor index reached) = (.ok value, other.cursor last reached')) :
    parser.Settles buffer index reached (.ok value) last reached' := by
  refine ⟨forward, within, ?_, same⟩
  intro violation impossible
  cases impossible

/-- A parser that stays where it is complains about the next token. -/
theorem of_complaint
    (reason : Reason)
    (within : index ≤ buffer.lexemes.length)
    (same : ∀ other : Buffer, buffer.Agrees other index →
      parser.outcome (other.cursor index reached) =
        (.error ⟨(buffer.cursor index reached).token, reason⟩, other.cursor index reached)) :
    parser.Settles buffer index reached (.error ⟨(buffer.cursor index reached).token, reason⟩)
      index reached := by
  refine ⟨Nat.le_refl _, within, ?_, same⟩
  rintro _ ⟨⟩
  rw [Buffer.getElem?_closed within reached, Option.map_some, Cursor.token]

/-- What is made of a parser settles on its complaint, if it passes that on. -/
theorem passed
    {whole : Parser β}
    {violation : Violation}
    (settled : parser.Settles buffer index reached (.error violation) last reached')
    (passes : ∀ cursor after, parser.outcome cursor = (.error violation, after) →
      whole.outcome cursor = (.error violation, after)) :
    whole.Settles buffer index reached (.error violation) last reached' := by
  refine ⟨settled.forward, settled.within, ?_, ?_⟩
  · rintro _ ⟨⟩
    exact settled.blames violation rfl
  · intro other agrees
    exact passes _ _ (settled.same other agrees)

end Settles

/-- A parser looks ahead by one token. -/
def Local (parser : Parser α) : Prop :=
  ∀ (buffer : Buffer) (index reached : Nat), index ≤ buffer.lexemes.length →
    ∃ result last reached', parser.Settles buffer index reached result last reached'

theorem local_pure (value : α) : Local (pure value : Parser α) := by
  intro buffer index reached within
  exact ⟨.ok value, index, reached, .of_value (Nat.le_refl _) within fun _ _ => rfl⟩

theorem local_fail (reason : Reason) : Local (fail reason : Parser α) := by
  intro buffer index reached within
  refine ⟨_, index, reached, .of_complaint reason within ?_⟩
  intro other agrees
  rw [outcome, fail, Cursor.token, Cursor.token, agrees.next_eq within]

/-- What a parser makes of the next lexeme and of the offset that was reached, it does locally. -/
theorem local_get_bind
    {next : Cursor → Parser β}
    (sees : ∀ cursor cursor' : Cursor, cursor.next = cursor'.next →
      cursor.reached = cursor'.reached → next cursor = next cursor')
    (rest : ∀ cursor, Local (next cursor)) :
    Local (get >>= next) := by
  intro buffer index reached within
  obtain ⟨result, last, reached', settled⟩ :=
    rest (buffer.cursor index reached) buffer index reached within
  refine ⟨result, last, reached', settled.forward, settled.within, settled.blames, ?_⟩
  intro other agrees
  have same := sees _ _ ((agrees.mono settled.forward).next_eq within reached) rfl
  change (next (other.cursor index reached)).outcome _ = _
  rw [same, settled.same other agrees]

theorem local_bind
    {first : Parser α}
    {next : α → Parser β}
    (head : Local first)
    (rest : ∀ value, Local (next value)) :
    Local (first >>= next) := by
  intro buffer index reached within
  obtain ⟨result, middle, reached', settled⟩ := head buffer index reached within
  cases result with
  | error violation =>
    refine ⟨.error violation, middle, reached', settled.passed ?_⟩
    intro cursor after complains
    rw [outcome_bind, complains]
  | ok value =>
    obtain ⟨result, last, reached'', settled'⟩ := rest value buffer middle reached' settled.within
    refine ⟨result, last, reached'', Nat.le_trans settled.forward settled'.forward, settled'.within,
      settled'.blames, ?_⟩
    intro other agrees
    rw [outcome_bind, settled.same other (agrees.mono settled'.forward)]
    exact settled'.same other agrees

/-- Looking at the next symbol is local. -/
theorem local_peek_bind
    {next : Symbol → Parser β}
    (rest : ∀ symbol, Local (next symbol)) :
    Local (peek >>= next) := by
  have sees : ∀ cursor cursor' : Cursor, cursor.next = cursor'.next →
      cursor.reached = cursor'.reached → next cursor.symbol = next cursor'.symbol := by
    intro cursor cursor' same _
    rw [Cursor.symbol, Cursor.token, same, Cursor.symbol, Cursor.token]
  exact local_get_bind sees fun cursor => rest cursor.symbol

/-- A token that is not the end of the file is consumed if it fits. -/
theorem outcome_token
    (test : Symbol → Bool)
    (reason : Reason)
    (buffer : Buffer)
    {index : Nat}
    (within : index ≤ buffer.lexemes.length)
    (reached : Nat) :
    (token test reason).outcome (buffer.cursor index reached) =
      let next := (buffer.cursor index reached).next
      if next.symbol ≠ .endOfFile ∧ test next.symbol = true then
        (.ok next, buffer.cursor (index + 1) next.token.stop)
      else
        (.error ⟨next.token, reason⟩, buffer.cursor index reached) := by
  rcases buffer.rest_cursor within reached with ⟨-, nothing⟩ | ⟨-, lexeme, inner, more⟩
  · have ended : (buffer.cursor index reached).next.symbol = .endOfFile :=
      Cursor.symbol_of_rest_nil nothing
    rw [outcome, token, nothing]
    simp [ended, Cursor.token]
  · have next : (buffer.cursor index reached).next = lexeme := by
      rw [Cursor.next, more]
      rfl
    rw [outcome, token, more, next]
    by_cases fits : test lexeme.symbol = true
    · simp [fits, inner, Buffer.cursor]
    · simp [fits, Cursor.token, next]

theorem local_token
    (test : Symbol → Bool)
    (reason : Reason) :
    Local (token test reason) := by
  intro buffer index reached within
  by_cases fits : (buffer.cursor index reached).next.symbol ≠ .endOfFile ∧
      test (buffer.cursor index reached).next.symbol = true
  · have more : index < buffer.lexemes.length := by
      rcases buffer.rest_cursor within reached with ⟨-, nothing⟩ | ⟨more, -⟩
      · exact absurd (Cursor.symbol_of_rest_nil nothing) fits.1
      · exact more
    refine ⟨.ok (buffer.cursor index reached).next, index + 1,
      (buffer.cursor index reached).next.token.stop, .of_value (Nat.le_succ _) more ?_⟩
    intro other agrees
    have before := agrees.mono (Nat.le_succ index)
    rw [outcome_token test reason other (before.within within), before.next_eq within]
    exact if_pos fits
  · refine ⟨_, index, reached, .of_complaint reason within ?_⟩
    intro other agrees
    rw [outcome_token test reason other (agrees.within within), agrees.next_eq within]
    exact if_neg fits

theorem outcome_iterate
    (step : Parser (List α × Bool))
    (cursor : Cursor) :
    (iterate step).outcome cursor =
      match step.outcome cursor with
      | (.error violation, after) => (.error violation, after)
      | (.ok (done, again), after) =>
        if again = true ∧ after.rest.length < cursor.rest.length then
          match (iterate step).outcome after with
          | (.error violation, last) => (.error violation, last)
          | (.ok more, last) => (.ok (done ++ more), last)
        else
          (.ok done, after) := by
  rw [outcome, iterate, outcome]
  cases step cursor with
  | error violation after => rfl
  | ok pair after =>
    obtain ⟨done, again⟩ := pair
    by_cases goes : again = true ∧ after.rest.length < cursor.rest.length
    · simp only [if_pos goes, outcome]
      cases iterate step after <;> rfl
    · simp only [if_neg goes]

/-- Between two indexes of a buffer there is progress or not, whatever the buffer. -/
theorem progress_iff
    {buffer : Buffer}
    {index middle : Nat}
    (within : middle ≤ buffer.lexemes.length)
    (reached reached' : Nat) :
    (buffer.cursor middle reached').rest.length < (buffer.cursor index reached).rest.length ↔
      index < middle := by
  rw [Buffer.length_rest_cursor, Buffer.length_rest_cursor]
  omega

/-- A loop of local steps is local.  The induction is on the number of lexemes that are left. -/
theorem local_iterate
    {step : Parser (List α × Bool)}
    (steps : Local step) :
    Local (iterate step) := by
  intro buffer index reached within
  induction size : buffer.lexemes.length - index using Nat.strongRecOn generalizing index reached with
  | ind size ih =>
    subst size
    obtain ⟨result, middle, reached', settled⟩ := steps buffer index reached within
    cases result with
    | error violation =>
      refine ⟨.error violation, middle, reached', settled.passed ?_⟩
      intro cursor after complains
      rw [outcome_iterate, complains]
    | ok pair =>
      obtain ⟨done, again⟩ := pair
      by_cases goes : again = true ∧ index < middle
      · obtain ⟨result, last, reached'', settled'⟩ :=
          ih (buffer.lexemes.length - middle) (by have := settled.within; omega) middle reached'
            settled.within rfl
        have onward := settled'.forward
        have same : ∀ other : Buffer, buffer.Agrees other last →
            (iterate step).outcome (other.cursor index reached) =
              match result, other.cursor last reached'' with
              | .error violation, last => (.error violation, last)
              | .ok more, last => (.ok (done ++ more), last) := by
          intro other agrees
          have before := agrees.mono onward
          rw [outcome_iterate, settled.same other before]
          simp only [progress_iff (before.within settled.within), goes, and_self, if_true,
            settled'.same other agrees]
          cases result <;> rfl
        cases result with
        | error violation =>
          refine ⟨.error violation, last, reached'', Nat.le_trans settled.forward onward,
            settled'.within, ?_, same⟩
          rintro _ ⟨⟩
          exact settled'.blames violation rfl
        | ok more =>
          exact ⟨.ok (done ++ more), last, reached'',
            .of_value (Nat.le_trans settled.forward onward) settled'.within same⟩
      · refine ⟨.ok done, middle, reached', .of_value settled.forward settled.within ?_⟩
        intro other agrees
        rw [outcome_iterate, settled.same other agrees]
        simp only [progress_iff (agrees.within settled.within), goes, if_false]

end Parser

namespace Production

open Oberon.Parser

/-- A production is local if the constructs one level deeper are. -/
theorem local_run
    {below : Level → Parser Tree}
    (levels : ∀ level, Local (below level))
    {yield : Yield}
    (production : Production yield) :
    Local (production.run below) := by
  induction production with
  | empty => exact local_pure _
  | token role symbols reason =>
    exact local_bind (local_token _ _) fun lexeme => local_pure _
  | gap role => exact local_pure _
  | fail reason => exact local_fail _
  | seq first second left right =>
    exact local_bind left fun front => local_bind right fun back => local_pure _
  | branch starts first second left right =>
    refine local_peek_bind fun symbol => ?_
    split
    · exact left
    · exact right
  | many starts item ih =>
    refine local_iterate (local_peek_bind fun symbol => ?_)
    split
    · exact local_bind ih fun trees => local_pure _
    · exact local_pure _
  | tail separator role stops exitRole exit item exits items =>
    refine local_iterate (local_peek_bind fun symbol => ?_)
    split
    · refine local_bind (local_token _ _) fun lexeme => local_peek_bind fun symbol => ?_
      split
      · exact local_bind exits fun trees => local_pure _
      · exact local_bind items fun trees => local_pure _
    · exact local_pure _
  | part role construct ih => exact local_bind ih fun tree => local_pure _
  | assemble assembly parts ih =>
    -- the place is read off twice: for its start, and for the end of what was consumed
    refine local_get_bind ?_ fun cursor => local_bind ih fun trees => local_get_bind ?_ fun after =>
      local_pure _
    · intro cursor cursor' next _
      rw [Cursor.start, Cursor.token, next, Cursor.start, Cursor.token]
    · intro after after' _ reached
      rw [Cursor.spanFrom, reached, Cursor.spanFrom]
  | deeper level => exact levels level
  | reclaim body closing inner last =>
    refine local_bind inner fun trees => local_peek_bind fun symbol => ?_
    cases (if symbol = .word .END then none else Tree.reclaimEnd? trees) with
    | some reclaimed => exact local_pure _
    | none => exact local_bind last fun back => local_pure _

end Production

/-- However many levels are left, the constructs of a level are parsed locally. -/
theorem Level.local_parse
    (budget : Nat)
    (level : Level) :
    Parser.Local (Level.parse budget level) := by
  induction budget generalizing level with
  | zero => exact Parser.local_fail _
  | succ budget ih => exact Production.local_run ih level.production

/-- One token of lookahead suffices.  From any index of a buffer a rule comes, at any depth, to some
result at a later index or the same one, not beyond the end of the file; if it fails, it complains
about the token there.  On every other buffer that has the same lexemes up to that index, it comes
to the same result at the same index. -/
theorem Rule.parseWithin_local
    (rule : Rule)
    (budget : Nat)
    (buffer : Buffer)
    (index reached : Nat)
    (within : index ≤ buffer.lexemes.length) :
    ∃ result last reached', index ≤ last ∧ last ≤ buffer.lexemes.length ∧
      (rule.parseWithin budget).outcome (buffer.cursor index reached) =
          (result, buffer.cursor last reached') ∧
        (∀ violation, result = .error violation →
          buffer.closed[last]?.map (·.token) = some violation.found) ∧
        ∀ other : Buffer,
          (∀ earlier ≤ last, other.closed[earlier]? = buffer.closed[earlier]?) →
            (rule.parseWithin budget).outcome (other.cursor index reached) =
              (result, other.cursor last reached') := by
  obtain ⟨result, last, reached', settled⟩ :=
    Production.local_run (Level.local_parse budget) rule.production buffer index reached within
  exact ⟨result, last, reached', settled.forward, settled.within, settled.same buffer (.refl _ _),
    settled.blames, settled.same⟩

/-- The theorem applies to `NEW`, which is a name because a parenthesis follows, whatever comes
after that. -/
theorem Rule.parseWithin_local_new :
    ∃ buffer other : Buffer, buffer.closed ≠ other.closed ∧
      ∃ tree, Rule.primaryExpression.parse.outcome (buffer.cursor 0 0) =
          (.ok tree, buffer.cursor 1 3) ∧
        Rule.primaryExpression.parse.outcome (other.cursor 0 0) = (.ok tree, other.cursor 1 3) := by
  let new : Lexeme := ⟨⟨.word .NEW, 0, 3⟩, ""⟩
  let parenthesis : Lexeme := ⟨⟨.mark .leftParen, 3, 4⟩, ""⟩
  let buffer : Buffer := ⟨[new, parenthesis], 4, by decide⟩
  let other : Buffer := ⟨[new, parenthesis, parenthesis], 5, by decide⟩
  obtain ⟨result, last, reached, -, within, ends, -, same⟩ :=
    Rule.parseWithin_local .primaryExpression maxNesting buffer 0 0 (by decide)
  have succeeded : (Rule.primaryExpression.parse.outcome (buffer.cursor 0 0)).1.isOk = true := by
    decide +kernel
  have place : (Rule.primaryExpression.parse.outcome (buffer.cursor 0 0)).2 = buffer.cursor 1 3 := by
    decide +kernel
  change Rule.primaryExpression.parse.outcome _ = _ at ends
  rw [ends] at succeeded place
  have count := congrArg (·.rest.length) place
  simp only [Buffer.length_rest_cursor] at count
  obtain rfl : last = 1 := by
    change 2 - last = 2 - 1 at count
    omega
  obtain rfl : reached = 3 := congrArg Cursor.reached place
  cases result with
  | ok tree => exact ⟨buffer, other, by decide, tree, ends, same other (by decide)⟩
  | error violation => cases succeeded

end Oberon
