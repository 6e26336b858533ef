import Oberon.Proofs.Consumption
import Oberon.Proofs.SymbolSet

/-!
# Progress

Which symbol comes next decides whether a production has to read a token.  `Production.moving` is
the set of the symbols at which it does, with a fixed answer for what stands one level deeper
(`Level.moving`): there the production cannot succeed on nothing (`Production.Reads.moved`).

A production that has read nothing has not moved the cursor (`Production.Reads.eq_of_stays`), so the
symbol it was chosen by is still the next one.
-/

namespace Oberon

/-- The symbols at which a construct of a level has at least one token. -/
def Level.moving : Level → SymbolSet
  | factor | type => .full
  | statement => .full \ .of Grammar.statementFollow
  | declarations => .of Grammar.declarationStarts

namespace Production

/-- The symbols at which a production reads at least one token. -/
def moving : {yield : Yield} → Production yield → SymbolSet
  | _, .empty => ∅
  | _, .token _ _ _ => .full
  | _, .gap _ => ∅
  | _, .fail _ => .full
  | _, .seq first second => first.moving ∪ second.moving
  | _, .branch starts first second => .choose starts first.moving second.moving
  | _, .many starts item => .of starts ∩ item.moving
  | _, .tail separator _ _ _ _ _ => .of [separator]
  | _, .part _ construct => construct.moving
  | _, .assemble _ parts => parts.moving
  | _, .deeper level => level.moving
  | _, .reclaim body _ => body.moving

end Production

theorem Level.moving_production
    {level : Level}
    {symbol : Symbol}
    (h : symbol ∈ level.moving) :
    symbol ∈ level.production.moving := by
  have nothing : level.moving \ level.production.moving = ∅ := by
    cases level <;> decide +kernel
  exact SymbolSet.mem_of_sdiff_eq_empty nothing h

namespace Cursor.Passes

variable
  {cursor after : Cursor}
  {front : List Lexeme}

/-- Nothing has been passed over if the rest is as long as before. -/
theorem eq_nil_of_length
    (passed : cursor.Passes front after)
    (stays : ¬ after.rest.length < cursor.rest.length) :
    front = [] := by
  rw [passed.rest, List.length_append] at stays
  exact List.eq_nil_of_length_eq_zero (by omega)

theorem eq_of_nil
    (passed : cursor.Passes [] after) :
    after = cursor := by
  obtain ⟨rest, stop, reached⟩ := passed
  obtain ⟨_, _, _⟩ := after
  cases cursor
  simp_all

theorem length_lt
    (passed : cursor.Passes front after)
    (several : front ≠ []) :
    after.rest.length < cursor.rest.length := by
  have longer := List.length_pos_iff.mpr several
  rw [passed.rest, List.length_append]
  omega

end Cursor.Passes

namespace Production.Reads

variable
  {budget : Nat}
  {yield : Yield}
  {production : Production yield}
  {cursor after : Cursor}
  {output : yield.Output}

/-- Without progress the cursor stays where it is. -/
theorem eq_of_stays
    (h : Reads budget production cursor output after)
    (stays : ¬ after.rest.length < cursor.rest.length) :
    after = cursor := by
  obtain ⟨front, passed, -⟩ := h.passes
  obtain rfl := passed.eq_nil_of_length stays
  exact passed.eq_of_nil

/-- A production reads a token at the symbols at which it moves. -/
theorem moved
    (h : Reads budget production cursor output after)
    (moves : cursor.symbol ∈ production.moving) :
    after.rest.length < cursor.rest.length := by
  induction h with
  | empty => exact absurd moves SymbolSet.not_mem_empty
  | token => exact Nat.lt_succ_self _
  | gap => exact absurd moves SymbolSet.not_mem_empty
  | @seq _ _ _ start middle _ _ _ head others left right =>
    have shorter := head.suffix.length_le
    have shorter' := others.suffix.length_le
    by_cases progress : middle.rest.length < start.rest.length
    · exact Nat.lt_of_le_of_lt shorter' progress
    · -- the first part has read nothing, so the second one starts at the same symbol
      obtain rfl := head.eq_of_stays progress
      rcases SymbolSet.mem_union.mp moves with first | second
      · exact absurd (left first) progress
      · exact right second
  | first chosen _ ih =>
    rw [Production.moving, SymbolSet.mem_choose, if_pos chosen] at moves
    exact ih moves
  | second refused _ ih =>
    rw [Production.moving, SymbolSet.mem_choose, if_neg refused] at moves
    exact ih moves
  | manyStop refused =>
    exact absurd (SymbolSet.mem_of.mp (SymbolSet.mem_inter.mp moves).1) refused
  | manyStep _ _ progress others =>
    exact Nat.lt_of_le_of_lt others.suffix.length_le progress
  | manyStall _ _ _ ih => exact ih (SymbolSet.mem_inter.mp moves).2
  | tailStop refused =>
    exact absurd (List.mem_singleton.mp (SymbolSet.mem_of.mp moves)) refused
  | tailStep _ head others =>
    have shorter := others.suffix.length_le
    have shorter' := head.suffix.length_le
    simp only [List.length_cons] at shorter' ⊢
    omega
  | tailExit _ last =>
    have shorter := last.suffix.length_le
    simp only [List.length_cons] at shorter ⊢
    omega
  | part _ ih => exact ih moves
  | assemble _ ih => exact ih moves
  | deeper _ ih => exact ih (Level.moving_production moves)
  | reclaimed _ _ _ ih => exact ih moves
  | unclaimed _ _ last inner =>
    exact Nat.lt_of_le_of_lt last.suffix.length_le (inner moves)

/-- A production that reads nothing was not begun at a symbol at which it moves. -/
theorem not_moving
    (h : Reads budget production cursor output cursor) :
    cursor.symbol ∉ production.moving := by
  intro moves
  exact absurd (h.moved moves) (Nat.lt_irrefl _)

end Production.Reads

end Oberon
