import Oberon.Proofs.Derivation

/-!
# What a derivation consumes

A derivation passes over some lexemes (`Cursor.Passes`), and what it yields has exactly their
tokens, in the same order (`Production.Reads.passes`).  The offset that the cursor has reached is
where the last of them ends.
-/

namespace Oberon

namespace Yield

/-- What a production yields, as a list of trees. -/
def trees : {yield : Yield} → yield.Output → List Tree
  | construct, tree => [tree]
  | parts, trees => trees

@[simp] theorem trees_construct (tree : Tree) : @trees construct tree = [tree] := rfl

@[simp] theorem trees_parts (output : List Tree) : @trees parts output = output := rfl

end Yield

namespace Cursor

/-- The way from one place to another, passing over some lexemes. -/
structure Passes (cursor : Cursor) (front : List Lexeme) (after : Cursor) : Prop where
  rest : cursor.rest = front ++ after.rest
  stop : after.stop = cursor.stop
  reached : after.reached = (front.getLast?.map (·.token.stop)).getD cursor.reached

namespace Passes

theorem refl (cursor : Cursor) : cursor.Passes [] cursor := ⟨rfl, rfl, rfl⟩

theorem single
    (lexeme : Lexeme)
    (rest : List Lexeme)
    (stop reached : Nat) :
    Passes ⟨lexeme :: rest, stop, reached⟩ [lexeme] ⟨rest, stop, lexeme.token.stop⟩ :=
  ⟨rfl, rfl, rfl⟩

theorem trans
    {cursor middle after : Cursor}
    {front back : List Lexeme}
    (left : cursor.Passes front middle)
    (right : middle.Passes back after) :
    cursor.Passes (front ++ back) after := by
  refine ⟨?_, ?_, ?_⟩
  · rw [left.rest, right.rest, List.append_assoc]
  · rw [right.stop, left.stop]
  · rw [right.reached, left.reached, List.getLast?_append]
    cases back.getLast? with
    | none => simp
    | some last => simp

/-- Passing over a lexeme and then over others. -/
theorem cons
    {lexeme : Lexeme}
    {rest front : List Lexeme}
    {stop reached : Nat}
    {after : Cursor}
    (h : Passes ⟨rest, stop, lexeme.token.stop⟩ front after) :
    Passes ⟨lexeme :: rest, stop, reached⟩ (lexeme :: front) after :=
  (single lexeme rest stop reached).trans h

end Passes

end Cursor

namespace Production

/-- A derivation yields the tokens it passes over. -/
theorem Reads.passes
    {budget : Nat}
    {yield : Yield}
    {production : Production yield}
    {cursor after : Cursor}
    {output : yield.Output}
    (h : Reads budget production cursor output after) :
    ∃ front, cursor.Passes front after ∧
      Tree.tokensOf (Yield.trees output) = front.map (·.token) := by
  induction h with
  | empty => exact ⟨[], .refl _, rfl⟩
  | token => exact ⟨_, .single .., by simp⟩
  | gap => exact ⟨[], .refl _, by simp⟩
  | seq _ _ left right =>
    rcases left with ⟨front, passed, tokens⟩
    rcases right with ⟨back, passed', tokens'⟩
    exact ⟨front ++ back, passed.trans passed', by simp_all⟩
  | first _ _ ih => exact ih
  | second _ _ ih => exact ih
  | manyStop => exact ⟨[], .refl _, rfl⟩
  | manyStep _ _ _ _ head others =>
    rcases head with ⟨front, passed, tokens⟩
    rcases others with ⟨back, passed', tokens'⟩
    exact ⟨front ++ back, passed.trans passed', by simp_all⟩
  | manyStall _ _ _ ih => exact ih
  | tailStop => exact ⟨[], .refl _, rfl⟩
  | @tailStep _ _ _ _ _ _ lexeme _ _ _ _ _ _ _ _ _ _ head others =>
    rcases head with ⟨front, passed, tokens⟩
    rcases others with ⟨back, passed', tokens'⟩
    exact ⟨lexeme :: (front ++ back), (passed.trans passed').cons, by simp_all⟩
  | @tailExit _ _ _ _ _ _ lexeme _ _ _ _ _ _ _ ih =>
    rcases ih with ⟨back, passed, tokens⟩
    exact ⟨lexeme :: back, passed.cons, by simp_all⟩
  | part _ ih =>
    rcases ih with ⟨front, passed, tokens⟩
    exact ⟨front, passed, by simp_all⟩
  | assemble _ ih =>
    rcases ih with ⟨front, passed, tokens⟩
    exact ⟨front, passed, by simp_all⟩
  | deeper _ ih => exact ih
  | reclaimed _ _ handed ih =>
    rcases ih with ⟨front, passed, tokens⟩
    exact ⟨front, passed, (Tree.tokensOf_of_reclaimEnd? handed).trans tokens⟩
  | unclaimed _ _ _ inner last =>
    rcases inner with ⟨front, passed, tokens⟩
    rcases last with ⟨back, passed', tokens'⟩
    exact ⟨front ++ back, passed.trans passed', by simp_all⟩

end Production

end Oberon
