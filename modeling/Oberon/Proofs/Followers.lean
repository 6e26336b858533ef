import Oberon.Proofs.Progress

/-!
# What may follow a construct

A construct is parsed from its own tokens and from the symbol of the one after them.  What happens
if another symbol follows?  `Production.unsteady` is the set of the symbols that cannot be replaced
by another one: a choice made with the follower in sight would come out differently, although the
chosen alternative may have read nothing (`Production.moving`).

In the place of all other symbols, the same lexemes are read to the same result wherever they stand
(`Production.Reads.beside`).

There is one choice for which it matters what has been read before.  The upper bound of a range may
be left out before every symbol that ends a statement, except for `FINALLY`.  So `FINALLY` cannot
stand after `..` (`Symbol.avoids`), and a choice right after that token is left out of account.
-/

namespace Oberon

/-- The symbols that are in a list if and only if another one is not. -/
def SymbolSet.unlike (symbols : List Symbol) (new : Symbol) : SymbolSet :=
  if new ∈ symbols then .full \ .of symbols else .of symbols

theorem SymbolSet.mem_iff_of_not_mem_unlike
    {symbols : List Symbol}
    {old new : Symbol}
    (h : old ∉ SymbolSet.unlike symbols new) :
    old ∈ symbols ↔ new ∈ symbols := by
  unfold unlike at h
  split at h <;> simp_all

/-- A choice comes out the same, unless the chosen alternative cannot be at its end. -/
theorem SymbolSet.choice_of_not_mem
    {symbols : List Symbol}
    {inside outside : SymbolSet}
    {old new : Symbol}
    (h : old ∉ SymbolSet.unlike symbols new \ SymbolSet.choose symbols inside outside) :
    (old ∈ symbols → old ∉ inside → new ∈ symbols) ∧
      (old ∉ symbols → old ∉ outside → new ∉ symbols) := by
  rw [mem_sdiff, mem_choose, not_and] at h
  constructor
  · intro chosen stays
    refine (mem_iff_of_not_mem_unlike fun unlike => h unlike ?_).mp chosen
    rwa [if_pos chosen]
  · intro refused stays
    refine (not_congr (mem_iff_of_not_mem_unlike fun unlike => h unlike ?_)).mp refused
    rwa [if_neg refused]

/-- The symbols that a symbol cannot stand after, although others can that end the same
constructs. -/
def Symbol.avoids : Symbol → List Symbol
  | .word .FINALLY => [.mark .upto]
  | _ => []

/-- The symbols that end a sequence of statements, where the end of the file can do so, too. -/
def Grammar.terminators : List Symbol :=
  statementFollow.filter (· ∉ [.mark .semicolon, .endOfFile])

/-- For the constructs of a level, the symbols that cannot be replaced by another one.  The end of
the file can replace every symbol, and every terminator can replace it after a statement. -/
def Level.unsteady (new : Symbol) (level : Level) : SymbolSet :=
  if new = .endOfFile then ∅
  else if new ∈ Grammar.terminators ∧ level ∈ [factor, statement] then
    .full \ .of [new, .endOfFile]
  else .full \ .of [new]

namespace Production

/-- The symbol that a production ends with, if there is only one. -/
def ending : {yield : Yield} → Production yield → Option Symbol
  | _, .token _ [symbol] _ => some symbol
  | _, _ => none

/-- The symbols before which a production may read something that it does not read before another
one, where the symbol right before the production may be known. -/
def unsteady (new : Symbol) : {yield : Yield} → (previous : Option Symbol) → Production yield →
    SymbolSet
  | _, _, .empty => ∅
  | _, _, .token _ _ _ => ∅
  | _, _, .gap _ => ∅
  | _, _, .fail _ => ∅
  | _, previous, .seq first second =>
    second.unsteady new first.ending ∪ first.unsteady new previous \ second.moving
  | _, previous, .branch starts first second =>
    (if previous.any (· ∈ new.avoids) then ∅
      else .unlike starts new \ .choose starts first.moving second.moving) ∪
      first.unsteady new previous ∪ second.unsteady new previous
  | _, _, .many starts item =>
    (.unlike starts new ∪ item.unsteady new none) \ (.of starts ∩ item.moving)
  | _, _, .tail separator _ stops _ exit item =>
    (if new = separator then .full else item.unsteady new none) \ .of [separator] ∪
      .unlike stops new \ .choose stops exit.moving item.moving ∪ exit.unsteady new none
  | _, previous, .part _ construct => construct.unsteady new previous
  | _, previous, .assemble _ parts => parts.unsteady new previous
  | _, _, .deeper level => level.unsteady new
  | _, _, .reclaim body closing =>
    (if new = .word .END then .full else body.unsteady new none) \ .of [.word .END] ∪
      (.unlike [.word .END] new ∪ body.unsteady new none) \ closing.moving ∪
      closing.unsteady new none

/-- Every symbol can be replaced by itself. -/
theorem not_mem_unsteady_self
    (symbol : Symbol)
    {yield : Yield}
    (production : Production yield)
    (previous : Option Symbol) :
    symbol ∉ production.unsteady symbol previous := by
  have same : ∀ symbols, symbol ∉ SymbolSet.unlike symbols symbol := by
    intro symbols
    unfold SymbolSet.unlike
    split <;> simp_all
  induction production generalizing previous with
  | branch starts => by_cases h : previous.any (· ∈ symbol.avoids) = true <;> simp_all [unsteady]
  | tail separator => by_cases h : symbol = separator <;> simp_all [unsteady]
  | reclaim => by_cases h : symbol = .word .END <;> simp_all [unsteady]
  | deeper level =>
    unfold unsteady Level.unsteady
    split
    · exact SymbolSet.not_mem_empty
    · split <;> simp
  | _ => simp_all [unsteady]

end Production

theorem Level.mem_unsteady
    {level : Level}
    {old new : Symbol}
    (h : old ∈ level.production.unsteady new none) :
    old ∈ level.unsteady new := by
  have other : old ≠ new := by
    rintro rfl
    exact level.production.not_mem_unsteady_self old none h
  unfold Level.unsteady
  split
  · rename_i ends
    have nothing : level.production.unsteady .endOfFile none = ∅ := by
      cases level <;> decide +kernel
    rwa [ends, nothing] at h
  · split
    · rename_i terminates
      have steady : ∀ new ∈ Grammar.terminators, ∀ level ∈ [factor, statement],
          .endOfFile ∉ level.production.unsteady new none := by
        decide +kernel
      have unlike : old ≠ .endOfFile := by
        rintro rfl
        exact steady new terminates.1 level terminates.2 h
      simp [other, unlike]
    · simp [other]

namespace Cursor

theorem start_of_rest
    {cursor : Cursor}
    {lexeme : Lexeme}
    {rest : List Lexeme}
    (h : cursor.rest = lexeme :: rest) :
    cursor.start = lexeme.token.start := by
  simp [start, token, next, h]

/-- Two ways over the same lexemes.  A construct without tokens has the same span at the beginning
of both, and the next token starts at the same offset at their ends. -/
structure Beside (front : List Lexeme) (cursor after cursor' after' : Cursor) : Prop where
  passes : cursor.Passes front after
  passes' : cursor'.Passes front after'
  span : cursor'.spanFrom cursor'.start = cursor.spanFrom cursor.start
  start : after'.start = after.start

namespace Beside

variable
  {front back : List Lexeme}
  {lexeme : Lexeme}
  {rest : List Lexeme}
  {stop reached : Nat}
  {cursor middle after cursor' after' : Cursor}

theorem eq_of_nil
    (h : Beside [] cursor after cursor' after') :
    after = cursor ∧ after' = cursor' :=
  ⟨h.passes.eq_of_nil, h.passes'.eq_of_nil⟩

/-- A way that ends where it begins does so beside itself. -/
theorem stays
    (h : Beside front cursor cursor cursor' after') :
    after' = cursor' := by
  obtain rfl := h.passes.eq_nil_of_length (Nat.lt_irrefl _)
  exact h.eq_of_nil.2

/-- What is true of the symbol at the beginning of one way is true of the one at the beginning of
the other, if that is so where both ways are at their end. -/
theorem transfer
    (P : Symbol → Prop)
    (h : Beside front cursor after cursor' after')
    (here : P cursor.symbol)
    (ends : front = [] → after = cursor → P after'.symbol) :
    P cursor'.symbol := by
  cases front with
  | nil =>
    obtain ⟨stays, rfl⟩ := h.eq_of_nil
    exact ends rfl stays
  | cons lexeme rest =>
    rw [symbol_of_rest h.passes'.rest]
    rwa [symbol_of_rest h.passes.rest] at here

theorem start_eq
    (h : Beside front cursor after cursor' after') :
    cursor'.start = cursor.start :=
  congrArg Span.start h.span

/-- The constructs that are read on both ways have the same span. -/
theorem spanFrom
    (h : Beside front cursor after cursor' after') :
    after'.spanFrom cursor'.start = after.spanFrom cursor.start := by
  cases last : front.getLast? with
  | none =>
    obtain rfl := List.getLast?_eq_none_iff.mp last
    obtain ⟨rfl, rfl⟩ := h.eq_of_nil
    exact h.span
  | some lexeme =>
    rw [Cursor.spanFrom, Cursor.spanFrom, h.passes'.reached, h.passes.reached, last, h.start_eq]
    rfl

/-- A stop on one of the ways is one on the other, too. -/
theorem split
    (h : Beside (front ++ back) cursor after cursor' after')
    (left : cursor.Passes front middle)
    (right : middle.Passes back after) :
    ∃ middle', Beside front cursor middle cursor' middle' ∧
      Beside back middle after middle' after' := by
  let middle' : Cursor :=
    ⟨back ++ after'.rest, after'.stop, (front.getLast?.map (·.token.stop)).getD cursor'.reached⟩
  have left' : cursor'.Passes front middle' :=
    ⟨by rw [h.passes'.rest, List.append_assoc], h.passes'.stop, rfl⟩
  have right' : middle'.Passes back after' := by
    refine ⟨rfl, rfl, ?_⟩
    rw [h.passes'.reached, List.getLast?_append]
    cases back.getLast? <;> rfl
  have start : middle'.start = middle.start := by
    cases back with
    | nil =>
      rw [← right'.eq_of_nil, ← right.eq_of_nil]
      exact h.start
    | cons lexeme rest => rw [start_of_rest right'.rest, start_of_rest right.rest]
  have first : Beside front cursor middle cursor' middle' := ⟨left, left', h.span, start⟩
  refine ⟨middle', first, right, right', ?_, h.start⟩
  -- what was consumed last is the same, and if nothing was, then the ways have just begun
  have reached := first.spanFrom
  cases front with
  | nil =>
    obtain ⟨rfl, same⟩ := first.eq_of_nil
    rw [same]
    exact h.span
  | cons lexeme rest =>
    have same : middle'.reached = middle.reached := by
      rw [left'.reached, left.reached, List.getLast?_cons]
      rfl
    rw [Cursor.spanFrom, Cursor.spanFrom, same, start]

/-- Ways that begin with a token go on beside each other after it. -/
theorem uncons
    (h : Beside front ⟨lexeme :: rest, stop, reached⟩ after cursor' after')
    (right : Cursor.Passes ⟨rest, stop, lexeme.token.stop⟩ back after) :
    ∃ rest' stop' reached', front = lexeme :: back ∧ cursor' = ⟨lexeme :: rest', stop', reached'⟩ ∧
      Beside back ⟨rest, stop, lexeme.token.stop⟩ after
        ⟨rest', stop', lexeme.token.stop⟩ after' := by
  have first := Cursor.Passes.single lexeme rest stop reached
  have same : front = [lexeme] ++ back := by
    have lexemes := h.passes.rest
    rw [(first.trans right).rest] at lexemes
    exact (List.append_cancel_right lexemes).symm
  rw [same] at h
  obtain ⟨middle', left, right'⟩ := h.split first right
  obtain ⟨rest', stop', reached'⟩ := cursor'
  obtain ⟨rest'', stop'', reached''⟩ := middle'
  obtain ⟨lexemes, ends, consumed⟩ := left.passes'
  obtain rfl : rest' = lexeme :: rest'' := lexemes
  obtain rfl : stop'' = stop' := ends
  obtain rfl : reached'' = lexeme.token.stop := consumed
  exact ⟨rest'', stop'', reached', same, rfl, right'⟩

end Beside

end Cursor

/-- Lexemes end with a symbol, if that is known. -/
def Symbol.Precedes (previous : Option Symbol) (lexemes : List Lexeme) : Prop :=
  ∀ symbol, previous = some symbol → lexemes.getLast?.map (·.symbol) = some symbol

theorem Symbol.precedes_none (lexemes : List Lexeme) : Precedes none lexemes := nofun

/-- After a production, of which the lexemes up to there are known, one symbol can be replaced by
another one: the production makes the same choices, perhaps except for one after a symbol to avoid,
and there is no symbol to avoid. -/
structure Production.Replaces
    {yield : Yield}
    (production : Production yield)
    (previous : Option Symbol)
    (lexemes : List Lexeme)
    (old new : Symbol) : Prop where
  here : old ∉ production.unsteady new previous
  last : old ≠ new → ∀ lexeme, lexemes.getLast? = some lexeme → lexeme.symbol ∉ new.avoids

theorem Production.Replaces.self
    {yield : Yield}
    (production : Production yield)
    (previous : Option Symbol)
    (lexemes : List Lexeme)
    (symbol : Symbol) :
    production.Replaces previous lexemes symbol symbol :=
  ⟨production.not_mem_unsteady_self symbol previous, fun other => absurd rfl other⟩

namespace Production.Replaces

variable
  {previous : Option Symbol}
  {lexemes : List Lexeme}
  {old new : Symbol}
  {starts stops : List Symbol}
  {first second exit item body closing : Production .parts}

/-- What stands before a production is forgotten where it makes no difference. -/
theorem forget
    {yield : Yield}
    {production : Production yield}
    (h : production.Replaces previous lexemes old new)
    (same : production.unsteady new none = production.unsteady new previous) :
    production.Replaces none lexemes old new :=
  ⟨same ▸ h.here, h.last⟩

theorem seq
    (h : (Production.seq first second).Replaces previous lexemes old new) :
    second.Replaces first.ending lexemes old new ∧
      (old ∉ second.moving → first.Replaces previous lexemes old new) := by
  have here : old ∉ second.unsteady new first.ending ∪
      first.unsteady new previous \ second.moving := h.here
  simp only [SymbolSet.mem_union, SymbolSet.mem_sdiff, not_or] at here
  exact ⟨⟨here.1, h.last⟩, fun stays => ⟨fun changed => here.2 ⟨changed, stays⟩, h.last⟩⟩

theorem branch
    {yield : Yield}
    {first second : Production yield}
    (h : (Production.branch starts first second).Replaces previous lexemes old new) :
    first.Replaces previous lexemes old new ∧ second.Replaces previous lexemes old new := by
  have here := h.here
  simp only [unsteady, SymbolSet.mem_union, not_or] at here
  exact ⟨⟨here.1.2, h.last⟩, ⟨here.2, h.last⟩⟩

/-- A choice comes out the same at the end of what is read. -/
theorem choice
    {yield : Yield}
    {first second : Production yield}
    (h : (Production.branch starts first second).Replaces previous lexemes old new)
    (behind : Symbol.Precedes previous lexemes) :
    (old ∈ starts → old ∉ first.moving → new ∈ starts) ∧
      (old ∉ starts → old ∉ second.moving → new ∉ starts) := by
  by_cases same : old = new
  · subst same
    exact ⟨fun chosen _ => chosen, fun refused _ => refused⟩
  · have free : previous.any (· ∈ new.avoids) = false := by
      cases known : previous with
      | none => rfl
      | some symbol =>
        obtain ⟨lexeme, found, rfl⟩ := Option.map_eq_some_iff.mp (behind symbol known)
        simpa using h.last same lexeme found
    have here := h.here
    simp only [unsteady, free, Bool.false_eq_true, if_false, SymbolSet.mem_union, not_or] at here
    exact SymbolSet.choice_of_not_mem here.1.1

theorem many
    (h : (Production.many starts item).Replaces previous lexemes old new)
    (stays : old ∉ (Production.many starts item).moving) :
    (old ∈ starts ↔ new ∈ starts) ∧ item.Replaces none lexemes old new := by
  have here : old ∉ (SymbolSet.unlike starts new ∪ item.unsteady new none) \
      (Production.many starts item).moving := h.here
  simp only [SymbolSet.mem_union, SymbolSet.mem_sdiff, stays, not_false_eq_true, and_true,
    not_or] at here
  exact ⟨SymbolSet.mem_iff_of_not_mem_unlike here.1, here.2, h.last⟩

theorem tail
    {separator : Symbol}
    {role exitRole : Role}
    (h : (Production.tail separator role stops exitRole exit item).Replaces previous lexemes
      old new) :
    (old ≠ separator → new ≠ separator ∧ item.Replaces none lexemes old new) ∧
      (old ∈ stops → old ∉ exit.moving → new ∈ stops) ∧
        (old ∉ stops → old ∉ item.moving → new ∉ stops) ∧
          exit.Replaces none lexemes old new := by
  have here := h.here
  simp only [unsteady, SymbolSet.mem_union, not_or] at here
  obtain ⟨⟨going, choice⟩, out⟩ := here
  have same := SymbolSet.choice_of_not_mem choice
  refine ⟨fun ends => ?_, same.1, same.2, out, h.last⟩
  simp only [SymbolSet.mem_sdiff, SymbolSet.mem_of, List.mem_singleton, ends, not_false_eq_true,
    and_true] at going
  split at going
  · exact absurd SymbolSet.mem_full going
  · exact ⟨‹_›, going, h.last⟩

theorem deeper
    {level : Level}
    (h : (Production.deeper level).Replaces previous lexemes old new) :
    level.production.Replaces none lexemes old new :=
  ⟨fun changed => h.here (Level.mem_unsteady changed), h.last⟩

theorem reclaim
    (h : (Production.reclaim body closing).Replaces previous lexemes old new) :
    (old ≠ .word .END → new ≠ .word .END ∧ body.Replaces none lexemes old new) ∧
      (old ∉ closing.moving → (old = .word .END ↔ new = .word .END) ∧
        body.Replaces none lexemes old new) ∧
        closing.Replaces none lexemes old new := by
  have here := h.here
  simp only [unsteady, SymbolSet.mem_union, not_or] at here
  obtain ⟨⟨handed, kept⟩, last⟩ := here
  refine ⟨fun ends => ?_, fun stays => ?_, last, h.last⟩
  · simp only [SymbolSet.mem_sdiff, SymbolSet.mem_of, List.mem_singleton, ends, not_false_eq_true,
      and_true] at handed
    split at handed
    · exact absurd SymbolSet.mem_full handed
    · exact ⟨‹_›, handed, h.last⟩
  · simp only [SymbolSet.mem_sdiff, SymbolSet.mem_union, stays, not_false_eq_true, and_true,
      not_or] at kept
    have same := SymbolSet.mem_iff_of_not_mem_unlike kept.1
    simp only [List.mem_singleton] at same
    exact ⟨same, kept.2, h.last⟩

end Production.Replaces

/-- What stands before a way beside another one can be followed by the symbol there, if it can where
both ways are at their end. -/
theorem Cursor.Beside.replaces
    {before front back : List Lexeme}
    {cursor after cursor' after' : Cursor}
    {yield : Yield}
    {production : Production yield}
    {previous : Option Symbol}
    (ways : Cursor.Beside back cursor after cursor' after')
    (ends : after = cursor →
      production.Replaces previous (before ++ (front ++ back)) after.symbol after'.symbol) :
    production.Replaces previous (before ++ front) cursor.symbol cursor'.symbol := by
  cases back with
  | nil =>
    obtain ⟨rfl, rfl⟩ := ways.eq_of_nil
    rw [List.append_nil] at ends
    exact ends rfl
  | cons lexeme rest =>
    rw [symbol_of_rest ways.passes'.rest, symbol_of_rest ways.passes.rest]
    exact .self _ _ _ _

namespace Production.Reads

variable
  {budget : Nat}
  {yield : Yield}
  {production : Production yield}
  {cursor after : Cursor}
  {output : yield.Output}

/-- Where one production stops and another one goes on, there is a stop on a way beside. -/
theorem split_beside
    {lexemes : List Lexeme}
    {first second : Production .parts}
    {trees trees' : List Tree}
    {middle cursor' after' : Cursor}
    (head : Reads budget first cursor trees middle)
    (others : Reads budget second middle trees' after)
    (ways : Cursor.Beside lexemes cursor after cursor' after') :
    ∃ middle' front back, lexemes = front ++ back ∧
      Cursor.Beside front cursor middle cursor' middle' ∧
        Cursor.Beside back middle after middle' after' := by
  obtain ⟨front, left, -⟩ := head.passes
  obtain ⟨back, right, -⟩ := others.passes
  have same : lexemes = front ++ back := by
    have lexemes := ways.passes.rest
    rw [(left.trans right).rest] at lexemes
    exact (List.append_cancel_right lexemes).symm
  rw [same] at ways
  obtain ⟨middle', ways'⟩ := ways.split left right
  exact ⟨middle', front, back, same, ways'⟩

/-- A production ends with the symbol that it has to end with. -/
theorem precedes
    (h : Reads budget production cursor output after)
    {front : List Lexeme}
    (passed : cursor.Passes front after)
    (before : List Lexeme) :
    Symbol.Precedes production.ending (before ++ front) := by
  intro symbol ends
  unfold ending at ends
  split at ends
  · cases h with
    | token fits =>
      obtain rfl := Option.some.inj ends
      have same := passed.rest
      rw [← List.singleton_append] at same
      rw [← List.append_cancel_right same]
      simpa using fits
  · cases ends

/-- Whatever a production reads it reads on a way beside, if the symbol at the end of that way can
replace the original one. -/
theorem beside_after
    (h : Reads budget production cursor output after)
    {previous : Option Symbol}
    {before front : List Lexeme}
    {cursor' after' : Cursor}
    (behind : Symbol.Precedes previous before)
    (ways : Cursor.Beside front cursor after cursor' after')
    (replaces : production.Replaces previous (before ++ front) after.symbol after'.symbol) :
    Reads budget production cursor' output after' := by
  induction h generalizing previous before front cursor' after' with
  | empty =>
    obtain rfl := ways.stays
    exact .empty
  | token fits =>
    obtain ⟨rest', stop', reached', -, rfl, ways'⟩ := ways.uncons (.refl _)
    rw [ways'.stays]
    exact .token fits
  | gap =>
    obtain rfl := ways.stays
    exact .gap
  | seq head others left right =>
    obtain ⟨middle', front, back, rfl, ways, ways'⟩ := head.split_beside others ways
    obtain ⟨second, first⟩ := replaces.seq
    rw [← List.append_assoc] at second
    refine .seq (left behind ways (ways'.replaces ?_))
      (right (head.precedes ways.passes before) ways' second)
    rintro rfl
    exact first others.not_moving
  | first chosen inner ih =>
    refine .first (ways.transfer (· ∈ _) chosen ?_) (ih behind ways replaces.branch.1)
    rintro rfl rfl
    rw [List.append_nil] at replaces
    exact (replaces.choice behind).1 chosen inner.not_moving
  | second refused inner ih =>
    refine .second (ways.transfer (· ∉ _) refused ?_) (ih behind ways replaces.branch.2)
    rintro rfl rfl
    rw [List.append_nil] at replaces
    exact (replaces.choice behind).2 refused inner.not_moving
  | @manyStop budget _ item _ refused =>
    obtain rfl := ways.stays
    have ends : Reads budget (.many _ item) _ [] _ := .manyStop refused
    exact .manyStop (refused ∘ (replaces.many ends.not_moving).1.mpr)
  | manyStep chosen head progress others left right =>
    obtain ⟨middle', front, back, rfl, ways, ways'⟩ := head.split_beside others ways
    have several : front ≠ [] := by
      rintro rfl
      rw [ways.passes.eq_of_nil] at progress
      exact Nat.lt_irrefl _ progress
    have onward := replaces.forget rfl
    rw [← List.append_assoc] at onward
    refine .manyStep (ways.transfer (· ∈ _) chosen fun nothing => absurd nothing several)
      (left (Symbol.precedes_none before) ways (ways'.replaces ?_))
      (ways.passes'.length_lt several) (right (Symbol.precedes_none _) ways' onward)
    rintro rfl
    exact (replaces.many others.not_moving).2
  | manyStall chosen head stall ih =>
    obtain rfl := head.eq_of_stays stall
    obtain rfl := ways.stays
    have ends := Reads.manyStall chosen head stall
    obtain ⟨same, item⟩ := replaces.many ends.not_moving
    exact .manyStall (same.mp chosen) (ih (Symbol.precedes_none _) ways item) (Nat.lt_irrefl _)
  | tailStop refused =>
    obtain rfl := ways.stays
    exact .tailStop (replaces.tail.1 refused).1
  | @tailStep _ _ _ _ _ _ lexeme _ _ _ _ _ _ _ refused head others left right =>
    obtain ⟨front, passed, -⟩ := head.passes
    obtain ⟨back, passed', -⟩ := others.passes
    obtain ⟨rest', stop', reached', rfl, rfl, onward⟩ := ways.uncons (passed.trans passed')
    obtain ⟨middle', front, back, same, ways, ways'⟩ := head.split_beside others onward
    rw [same, List.append_cons] at replaces
    obtain ⟨going, -, choice, -⟩ := replaces.tail
    have others' := replaces.forget rfl
    rw [← List.append_assoc] at others'
    refine .tailStep (onward.transfer (· ∉ _) refused ?_)
      (left (Symbol.precedes_none (before ++ [lexeme])) ways (ways'.replaces ?_))
      (right (Symbol.precedes_none _) ways' others')
    · rintro - rfl
      refine choice refused fun moves => ?_
      exact absurd (head.moved moves) (Nat.not_lt.mpr others.suffix.length_le)
    · rintro rfl
      refine (going ?_).2
      have ends := others.not_moving
      rwa [moving, SymbolSet.mem_of, List.mem_singleton] at ends
  | tailExit chosen last ih =>
    obtain ⟨back, passed, -⟩ := last.passes
    obtain ⟨rest', stop', reached', rfl, rfl, onward⟩ := ways.uncons passed
    rw [List.append_cons] at replaces
    obtain ⟨-, choice, -, exit⟩ := replaces.tail
    refine .tailExit (onward.transfer (· ∈ _) chosen ?_) (ih (Symbol.precedes_none _) onward exit)
    rintro - rfl
    exact choice chosen last.not_moving
  | part inner ih => exact .part (ih behind ways ⟨replaces.here, replaces.last⟩)
  | assemble inner ih =>
    rw [← ways.spanFrom]
    exact .assemble (ih behind ways ⟨replaces.here, replaces.last⟩)
  | deeper inner ih => exact .deeper (ih (Symbol.precedes_none _) ways replaces.deeper)
  | reclaimed inner closed handed ih =>
    obtain ⟨open', body⟩ := replaces.reclaim.1 closed
    exact .reclaimed (ih (Symbol.precedes_none _) ways body) open' handed
  | unclaimed inner kept last left right =>
    obtain ⟨middle', front, back, rfl, ways, ways'⟩ := inner.split_beside last ways
    obtain ⟨-, choice, closing⟩ := replaces.reclaim
    rw [← List.append_assoc] at closing
    refine .unclaimed (left (Symbol.precedes_none before) ways (ways'.replaces ?_)) ?_
      (right (Symbol.precedes_none _) ways' closing)
    · rintro rfl
      exact (choice last.not_moving).2
    · refine kept.imp_left fun ending => ways'.transfer (· = _) ending ?_
      rintro - rfl
      exact (choice last.not_moving).1.mp ending

/-- The same of a production of which nothing is known that stands before. -/
theorem beside
    (h : Reads budget production cursor output after)
    {front : List Lexeme}
    {cursor' after' : Cursor}
    (ways : Cursor.Beside front cursor after cursor' after')
    (replaces : production.Replaces none front after.symbol after'.symbol) :
    Reads budget production cursor' output after' :=
  h.beside_after (Symbol.precedes_none []) ways replaces

end Production.Reads

end Oberon
