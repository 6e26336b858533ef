import Oberon.Proofs.Standalone

/-!
# Terminators end sequences of statements

A sequence of statements that is accepted before the end of the file should be accepted before every
other symbol that ends a sequence of statements.  The symbols that end an empty statement or a
`RETURN` include `FINALLY`, but those that the upper bound of a range can be left out before do not.
So a sequence of statements is accepted before all of these symbols, unless it ends in `..` and the
symbol is `FINALLY` (`Rule.statementSequence_terminated_iff`).

That the other cases work is a matter of what may follow a construct (`Production.unsteady`).  That
this one does not is a matter of what it may end with (`Production.heeds`): nothing that is read
ends with a symbol that the next one avoids.
-/

namespace Oberon

namespace Production

/-- Whether a production never ends with a symbol that the next one avoids. -/
def heeds (next : Symbol) : {yield : Yield} → Production yield → Bool
  | _, .empty => true
  | _, .token _ symbols _ => symbols.all (· ∉ next.avoids)
  | _, .gap _ => true
  | _, .fail _ => true
  | _, .seq first second => (next ∈ second.moving || first.heeds next) && second.heeds next
  | _, .branch _ first second => first.heeds next && second.heeds next
  | _, .many _ item => item.heeds next
  | _, .tail separator _ _ _ exit item =>
    separator ∉ next.avoids && exit.heeds next && item.heeds next
  | _, .part _ construct => construct.heeds next
  | _, .assemble _ parts => parts.heeds next
  | _, .deeper _ => true
  | _, .reclaim body closing => body.heeds next && closing.heeds next

end Production

/-- Before a symbol, what has been passed over does not end with one that it avoids. -/
def Cursor.Heeds (next : Symbol) (cursor after : Cursor) : Prop :=
  after.symbol = next → ∀ front lexeme, cursor.Passes front after → front.getLast? = some lexeme →
    lexeme.symbol ∉ next.avoids

namespace Cursor.Heeds

variable
  {next : Symbol}
  {cursor middle after : Cursor}
  {front back rest : List Lexeme}
  {lexeme : Lexeme}
  {stop reached : Nat}

theorem refl (next : Symbol) (cursor : Cursor) : cursor.Heeds next cursor := by
  intro _ front lexeme passed last
  obtain rfl := passed.eq_nil_of_length (Nat.lt_irrefl _)
  cases last

theorem single
    (free : lexeme.symbol ∉ next.avoids) :
    Heeds next ⟨lexeme :: rest, stop, reached⟩ ⟨rest, stop, lexeme.token.stop⟩ := by
  intro _ front other passed last
  have same := passed.rest
  rw [← List.singleton_append] at same
  rw [← List.append_cancel_right same] at last
  obtain rfl := Option.some.inj last
  exact free

/-- Only if nothing comes behind it, the first part has to be looked at. -/
theorem trans
    (left : cursor.Passes front middle)
    (right : middle.Passes back after)
    (first : middle = after → after.symbol = next → cursor.Heeds next middle)
    (second : middle.Heeds next after) :
    cursor.Heeds next after := by
  intro follows whole lexeme passed last
  by_cases nothing : back = []
  · subst nothing
    obtain rfl := right.eq_of_nil
    exact first rfl follows follows whole lexeme passed last
  · have same := passed.rest
    rw [(left.trans right).rest] at same
    have ends := List.getLast?_eq_some_getLast nothing
    rw [← List.append_cancel_right same, List.getLast?_append, ends, Option.some_or] at last
    exact second follows back lexeme right (ends.trans last)

end Cursor.Heeds

namespace Production

/-- What is read does not end with a symbol that the next one avoids. -/
theorem Reads.heeds
    {budget : Nat}
    {yield : Yield}
    {production : Production yield}
    {cursor after : Cursor}
    {output : yield.Output}
    (h : Reads budget production cursor output after)
    {next : Symbol}
    (levels : ∀ level : Level, level.production.heeds next = true)
    (heeds : production.heeds next = true) :
    cursor.Heeds next after := by
  induction h with
  | empty => exact .refl _ _
  | token fits =>
    have free := List.all_eq_true.mp heeds _ fits
    exact .single (of_decide_eq_true free)
  | gap => exact .refl _ _
  | seq head others left right =>
    obtain ⟨front, passed, -⟩ := head.passes
    obtain ⟨back, passed', -⟩ := others.passes
    obtain ⟨first, second⟩ := Bool.and_eq_true_iff.mp heeds
    refine .trans passed passed' ?_ (right second)
    rintro rfl rfl
    rcases Bool.or_eq_true_iff.mp first with moves | first
    · exact absurd (of_decide_eq_true moves) others.not_moving
    · exact left first
  | first _ _ ih => exact ih (Bool.and_eq_true_iff.mp heeds).1
  | second _ _ ih => exact ih (Bool.and_eq_true_iff.mp heeds).2
  | manyStop => exact .refl _ _
  | manyStep _ head _ others left right =>
    obtain ⟨front, passed, -⟩ := head.passes
    obtain ⟨back, passed', -⟩ := others.passes
    exact .trans passed passed' (fun _ _ => left heeds) (right heeds)
  | manyStall _ _ _ ih => exact ih heeds
  | tailStop => exact .refl _ _
  | tailStep _ head others left right =>
    obtain ⟨front, passed, -⟩ := head.passes
    obtain ⟨back, passed', -⟩ := others.passes
    obtain ⟨separates, item⟩ := Bool.and_eq_true_iff.mp heeds
    obtain ⟨free, exit⟩ := Bool.and_eq_true_iff.mp separates
    refine .trans (.single _ _ _ _) (passed.trans passed') ?_
      (.trans passed passed' (fun _ _ => left item) (right heeds))
    exact fun _ _ => .single (of_decide_eq_true free)
  | tailExit _ last ih =>
    obtain ⟨back, passed, -⟩ := last.passes
    obtain ⟨separates, item⟩ := Bool.and_eq_true_iff.mp heeds
    obtain ⟨free, exit⟩ := Bool.and_eq_true_iff.mp separates
    refine .trans (.single _ _ _ _) passed ?_ (ih exit)
    exact fun _ _ => .single (of_decide_eq_true free)
  | part _ ih => exact ih heeds
  | assemble _ ih => exact ih heeds
  | deeper _ ih => exact ih (levels _)
  | reclaimed _ _ _ ih => exact ih (Bool.and_eq_true_iff.mp heeds).1
  | unclaimed inner _ last left right =>
    obtain ⟨front, passed, -⟩ := inner.passes
    obtain ⟨back, passed', -⟩ := last.passes
    obtain ⟨body, closing⟩ := Bool.and_eq_true_iff.mp heeds
    exact .trans passed passed' (fun _ _ => left body) (right closing)

end Production

theorem Level.heeds_production (level : Level) :
    level.production.heeds (.word .FINALLY) = true := by
  cases level <;> decide +kernel

theorem Rule.steady_statementSequence
    {next : Symbol}
    (terminates : next ∈ Grammar.terminators) :
    .endOfFile ∉ Rule.statementSequence.production.unsteady next none := by
  have every : ∀ next ∈ Grammar.terminators,
      .endOfFile ∉ Rule.statementSequence.production.unsteady next none := by
    decide +kernel
  exact every next terminates

theorem Symbol.eq_of_mem_avoids
    {next symbol : Symbol}
    (h : symbol ∈ next.avoids) :
    next = .word .FINALLY ∧ symbol = .mark .upto := by
  unfold avoids at h
  split at h
  · exact ⟨rfl, List.mem_singleton.mp h⟩
  · cases h

namespace Cursor

variable
  {lexemes more : List Lexeme}
  {next : Lexeme}

theorem ofLexemes_append_cons
    (inner : ∀ lexeme ∈ lexemes, lexeme.symbol ≠ .endOfFile)
    (goesOn : next.symbol ≠ .endOfFile)
    (more : List Lexeme) :
    ∃ rest stop, ofLexemes (lexemes ++ next :: more) = ⟨lexemes ++ next :: rest, stop, 0⟩ := by
  have others : (lexemes ++ next :: more).takeWhile (·.symbol != .endOfFile) =
      lexemes ++ next :: more.takeWhile (·.symbol != .endOfFile) := by
    rw [List.takeWhile_append_of_pos, List.takeWhile_cons_of_pos]
    · simpa using goesOn
    · intro lexeme member
      simpa using inner lexeme member
  exact ⟨_, _, by rw [ofLexemes, others]⟩

/-- Lexemes are passed over in the same way before the end of the file and before a lexeme that
starts where it stood. -/
theorem beside_ofLexemes
    {ending : Cursor}
    (inner : ∀ lexeme ∈ lexemes, lexeme.symbol ≠ .endOfFile)
    (goesOn : next.symbol ≠ .endOfFile)
    (passed : (ofLexemes (lexemes ++ [⟨.endAt next.token.start, ""⟩])).Passes lexemes ending) :
    ∃ after, Beside lexemes (.ofLexemes (lexemes ++ [⟨.endAt next.token.start, ""⟩])) ending
      (.ofLexemes (lexemes ++ next :: more)) after := by
  obtain ⟨rest, stop, same⟩ := ofLexemes_append_cons inner goesOn more
  rw [ofLexemes_append_end inner rfl] at passed ⊢
  rw [same]
  refine ⟨⟨next :: rest, stop, (lexemes.getLast?.map (·.token.stop)).getD 0⟩,
    ⟨passed, ⟨rfl, rfl, rfl⟩, ?_, ?_⟩⟩
  · cases lexemes <;> rfl
  · have nothing : ending.rest = [] := by simpa using passed.rest
    have ends : ending.start = next.token.start := by
      rw [start, token, Cursor.next, nothing, passed.stop]
      rfl
    exact ends.symm

/-- Whoever has passed over the lexemes is at the one after them. -/
theorem symbol_of_passes_ofLexemes
    {after : Cursor}
    (inner : ∀ lexeme ∈ lexemes, lexeme.symbol ≠ .endOfFile)
    (goesOn : next.symbol ≠ .endOfFile)
    (passed : (ofLexemes (lexemes ++ next :: more)).Passes lexemes after) :
    after.symbol = next.symbol := by
  obtain ⟨rest, stop, same⟩ := ofLexemes_append_cons inner goesOn more
  rw [same] at passed
  exact symbol_of_rest (List.append_cancel_left passed.rest).symm

end Cursor

/-- Terminators end sequences of statements.  Lexemes that are a sequence of statements before the
end of the file are the same sequence before every terminator that stands in its place, whatever
follows, and parsing stops there, unless the terminator is `FINALLY` and the lexemes end with `..`:
then it fails, or does not stop there. -/
theorem Rule.statementSequence_terminated_iff
    (lexemes more : List Lexeme)
    (next : Lexeme)
    (tree : Tree)
    (ending closed : Cursor)
    (inner : ∀ lexeme ∈ lexemes, lexeme.symbol ≠ .endOfFile)
    (accepted : Rule.statementSequence.parse
      (.ofLexemes (lexemes ++ [⟨.endAt next.token.start, ""⟩])) = .ok tree ending)
    (finished : Parser.finish ending = .ok () closed)
    (follows : next.symbol ∈ Grammar.statementFollow)
    (terminates : next.symbol ≠ .mark .semicolon ∧ next.symbol ≠ .endOfFile) :
    (∃ after, Rule.statementSequence.parse (.ofLexemes (lexemes ++ next :: more)) = .ok tree after ∧
        (Cursor.ofLexemes (lexemes ++ next :: more)).Passes lexemes after) ↔
      ¬ (next.symbol = .word .FINALLY ∧
        lexemes.getLast?.map (·.symbol) = some (.mark .upto)) := by
  have derived := Production.run_eq_ok_iff.mp accepted
  obtain ⟨front, passed, -⟩ := derived.passes
  obtain ⟨nothing, -⟩ := Parser.finish_eq_ok_iff.mp finished
  obtain rfl : front = lexemes := by
    have same := passed.rest
    rw [Cursor.ofLexemes_append_end inner rfl, nothing, List.append_nil] at same
    exact same.symm
  constructor
  · rintro ⟨after, parsed, stops⟩ ⟨final, open'⟩
    obtain ⟨lexeme, last, upto⟩ := Option.map_eq_some_iff.mp open'
    have arrived : after.symbol = .word .FINALLY :=
      (Cursor.symbol_of_passes_ofLexemes inner terminates.2 stops).trans final
    have heeds := (Production.run_eq_ok_iff.mp parsed).heeds Level.heeds_production
      (by decide +kernel)
    refine heeds arrived front lexeme stops last ?_
    rw [upto]
    exact List.mem_singleton_self _
  · intro allowed
    obtain ⟨after, ways⟩ := Cursor.beside_ofLexemes inner terminates.2 passed
    have arrived := Cursor.symbol_of_passes_ofLexemes inner terminates.2 ways.passes'
    refine ⟨after, Production.run_eq_ok_iff.mpr (derived.beside ways ⟨?_, ?_⟩), ways.passes'⟩
    · rw [Cursor.symbol_of_rest_nil nothing, arrived]
      refine Rule.steady_statementSequence (List.mem_filter.mpr ⟨follows, ?_⟩)
      simpa using terminates
    · intro _ lexeme last avoided
      rw [arrived] at avoided
      obtain ⟨final, upto⟩ := Symbol.eq_of_mem_avoids avoided
      exact allowed ⟨final, by rw [last, Option.map_some, upto]⟩

/-- The theorem applies to a range without an upper bound, which can stand before `END` but not
before `FINALLY`. -/
theorem Rule.statementSequence_terminated_open :
    ∃ (lexemes : List Lexeme) (tree : Tree),
      lexemes.map (·.symbol) = [.word .RETURN, .integer, .mark .upto] ∧
        (∃ after, Rule.statementSequence.parse
            (.ofLexemes (lexemes ++ [⟨⟨.word .END, 12, 15⟩, ""⟩])) = .ok tree after ∧
          (Cursor.ofLexemes (lexemes ++ [⟨⟨.word .END, 12, 15⟩, ""⟩])).Passes lexemes after) ∧
        ¬ ∃ after, Rule.statementSequence.parse
            (.ofLexemes (lexemes ++ [⟨⟨.word .FINALLY, 12, 19⟩, ""⟩])) = .ok tree after ∧
          (Cursor.ofLexemes (lexemes ++ [⟨⟨.word .FINALLY, 12, 19⟩, ""⟩])).Passes lexemes after := by
  let lexemes : List Lexeme :=
    [⟨⟨.word .RETURN, 0, 6⟩, ""⟩, ⟨⟨.integer, 7, 8⟩, "1"⟩, ⟨⟨.mark .upto, 9, 11⟩, ""⟩]
  have inner : ∀ lexeme ∈ lexemes, lexeme.symbol ≠ .endOfFile := by decide
  have place : (Rule.statementSequence.parse.place?
      (.ofLexemes (lexemes ++ [⟨.endAt 12, ""⟩]))).map (·.rest) = some [] := by
    decide +kernel
  obtain ⟨ending, found, nothing⟩ := Option.map_eq_some_iff.mp place
  obtain ⟨tree, accepted⟩ := Parser.place?_eq_some_iff.mp found
  have finished := Parser.finish_eq_ok_iff.mpr ⟨nothing, rfl⟩
  refine ⟨lexemes, tree, rfl, ?_, ?_⟩
  · exact (Rule.statementSequence_terminated_iff lexemes [] ⟨⟨.word .END, 12, 15⟩, ""⟩ tree ending _
      inner accepted finished (by decide) (by decide)).mpr (by decide)
  · intro parsed
    exact (Rule.statementSequence_terminated_iff lexemes [] ⟨⟨.word .FINALLY, 12, 19⟩, ""⟩ tree
      ending _ inner accepted finished (by decide) (by decide)).mp parsed (by decide)

end Oberon
