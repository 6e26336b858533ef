import Oberon.Parser.Parse

/-!
# The limit of nesting

The number of levels that are left decides only whether parsing is given up: with fewer levels a
production gives the same result, with the cursor at the same place, or else complains about the
nesting (`Production.run_filters`).
-/

namespace Oberon

namespace Parser

variable {α β : Type}

/-- A result that complains about the nesting. -/
def TooDeep (result : EStateM.Result Violation Cursor α) : Prop :=
  ∃ violation after rule, result = .error violation after ∧ violation.reason = .tooDeep rule

/-- A result that is the same as another one or complains about the nesting. -/
def Filters (result full : EStateM.Result Violation Cursor α) : Prop :=
  result = full ∨ TooDeep result

theorem filters_refl (result : EStateM.Result Violation Cursor α) : Filters result result :=
  .inl rfl

theorem tooDeep_bind
    {first : Parser α}
    {next : α → Parser β}
    {cursor : Cursor}
    (h : TooDeep (first cursor)) :
    TooDeep ((first >>= next) cursor) := by
  obtain ⟨violation, after, rule, failed, reason⟩ := h
  refine ⟨violation, after, rule, ?_, reason⟩
  simp [bind, EStateM.bind, failed]

theorem filters_bind
    {first first' : Parser α}
    {next next' : α → Parser β}
    {cursor : Cursor}
    (head : Filters (first cursor) (first' cursor))
    (rest : ∀ value middle, Filters (next value middle) (next' value middle)) :
    Filters ((first >>= next) cursor) ((first' >>= next') cursor) := by
  rcases head with same | deep
  · simp only [bind, EStateM.bind, same]
    cases first' cursor with
    | ok value middle => exact rest value middle
    | error violation after => exact filters_refl _
  · exact .inr (tooDeep_bind deep)

theorem filters_iterate
    {step step' : Parser (List α × Bool)}
    (steps : ∀ cursor, Filters (step cursor) (step' cursor))
    (cursor : Cursor) :
    Filters (iterate step cursor) (iterate step' cursor) := by
  induction size : cursor.rest.length using Nat.strongRecOn generalizing cursor with
  | ind size ih =>
    subst size
    rw [iterate, iterate.eq_def step']
    rcases steps cursor with same | ⟨violation, after, rule, failed, reason⟩
    · rw [same]
      cases step' cursor with
      | error violation after => exact filters_refl _
      | ok pair after =>
        obtain ⟨done, again⟩ := pair
        simp only
        split
        · rename_i progress
          rcases ih _ progress.2 after rfl with same | ⟨violation, last, rule, failed, reason⟩
          · rw [same]
            exact filters_refl _
          · rw [failed]
            exact .inr ⟨violation, last, rule, rfl, reason⟩
        · exact filters_refl _
    · rw [failed]
      exact .inr ⟨violation, after, rule, rfl, reason⟩

end Parser

namespace Production

open Oberon.Parser

/-- Whatever filters the constructs one level deeper filters a production. -/
theorem filters_run
    {below below' : Level → Parser Tree}
    (levels : ∀ level cursor, Filters (below level cursor) (below' level cursor))
    {yield : Yield}
    (production : Production yield)
    (cursor : Cursor) :
    Filters (production.run below cursor) (production.run below' cursor) := by
  induction production generalizing cursor with
  | empty => exact filters_refl _
  | token role symbols reason => exact filters_refl _
  | gap role => exact filters_refl _
  | fail reason => exact filters_refl _
  | seq first second left right =>
    refine filters_bind (left cursor) ?_
    intro front middle
    refine filters_bind (right middle) ?_
    intro back after
    exact filters_refl _
  | branch starts first second left right =>
    refine filters_bind (filters_refl _) ?_
    intro symbol middle
    split
    · exact left middle
    · exact right middle
  | many starts item ih =>
    refine filters_iterate ?_ cursor
    intro cursor
    refine filters_bind (filters_refl _) ?_
    intro symbol middle
    split
    · refine filters_bind (ih middle) ?_
      intro trees after
      exact filters_refl _
    · exact filters_refl _
  | tail separator role stops exitRole exit item exits items =>
    refine filters_iterate ?_ cursor
    intro cursor
    refine filters_bind (filters_refl _) ?_
    intro symbol middle
    split
    · refine filters_bind (filters_refl _) ?_
      intro lexeme middle
      refine filters_bind (filters_refl _) ?_
      intro symbol middle
      split
      · refine filters_bind (exits middle) ?_
        intro trees after
        exact filters_refl _
      · refine filters_bind (items middle) ?_
        intro trees after
        exact filters_refl _
    · exact filters_refl _
  | part role construct ih =>
    refine filters_bind (ih cursor) ?_
    intro tree after
    exact filters_refl _
  | assemble assembly parts ih =>
    refine filters_bind (filters_refl _) ?_
    intro start middle
    refine filters_bind (ih middle) ?_
    intro trees after
    exact filters_refl _
  | deeper level => exact levels level cursor
  | reclaim body closing inner last =>
    refine filters_bind (inner cursor) ?_
    intro trees middle
    refine filters_bind (filters_refl _) ?_
    intro symbol middle
    cases (if symbol = .word .END then none else Tree.reclaimEnd? trees) with
    | some reclaimed => exact filters_refl _
    | none =>
      refine filters_bind (last middle) ?_
      intro back after
      exact filters_refl _

end Production

/-- With fewer levels left, the constructs of a level give the same result or complain. -/
theorem Level.filters_parse
    {budget budget' : Nat}
    (h : budget ≤ budget')
    (level : Level)
    (cursor : Cursor) :
    Parser.Filters (Level.parse budget level cursor) (Level.parse budget' level cursor) := by
  induction budget generalizing budget' level cursor with
  | zero => exact .inr ⟨_, _, _, rfl, rfl⟩
  | succ budget ih =>
    obtain ⟨more, rfl⟩ := Nat.exists_eq_add_of_le' h
    exact Production.filters_run (ih (Nat.le_add_left budget more)) _ cursor

/-- The limit of nesting filters results, and changes nothing else. -/
theorem Production.run_filters
    {budget budget' : Nat}
    (h : budget ≤ budget')
    {yield : Yield}
    (production : Production yield)
    (cursor : Cursor) :
    Parser.Filters
      (production.run (Level.parse budget) cursor)
      (production.run (Level.parse budget') cursor) :=
  Production.filters_run (Level.filters_parse h) production cursor

end Oberon
