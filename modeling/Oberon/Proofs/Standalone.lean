import Oberon.Proofs.Followers
import Oberon.Proofs.Lossless
import Oberon.Proofs.Nesting

/-!
# Constructs standing alone

What follows a construct is looked at, but does not belong to it.  For all rules but one, the end of
the file can replace every symbol that may follow (`Rule.steady`).  The exception is the primary
expression, where `NEW` is an allocation or a name depending on whether a parenthesis follows.
Hence each of the others parses the same construct from its tokens alone (`Rule.parse_alone`).
-/

namespace Oberon

theorem Rule.unsteady_production
    (rule : Rule)
    (other : rule ≠ .primaryExpression) :
    rule.production.unsteady .endOfFile none = ∅ := by
  have every : ∀ rule ∈ Rule.all, rule ≠ .primaryExpression →
      rule.production.unsteady .endOfFile none = ∅ := by
    decide +kernel
  exact every rule rule.mem_all other

/-- Reading lexemes of a stream is reading them alone, beside the original way. -/
theorem Cursor.At.beside_alone
    {name : String}
    {text : List Char}
    {index : Nat}
    {cursor after : Cursor}
    {front : List Lexeme}
    (h : cursor.At (.ofText name text) index)
    (passed : cursor.Passes front after) :
    ∃ ending, Cursor.Beside front cursor after
        (.ofLexemes (front ++ [⟨.endAt after.start, ""⟩])) ending ∧
      ending.rest = [] := by
  have inner : ∀ lexeme ∈ front, lexeme.symbol ≠ .endOfFile := by
    intro lexeme member
    refine h.symbol_ne_endOfFile ?_
    rw [passed.rest]
    exact List.mem_append_left _ member
  rw [ofLexemes_append_end inner rfl]
  refine ⟨⟨[], after.start, (front.getLast?.map (·.token.stop)).getD 0⟩,
    ⟨passed, ⟨(List.append_nil _).symm, rfl, rfl⟩, ?_, rfl⟩, rfl⟩
  have begins : (⟨front, after.start, 0⟩ : Cursor).start = cursor.start := by
    cases front with
    | nil =>
      rw [← passed.eq_of_nil]
      rfl
    | cons lexeme rest =>
      have first : (⟨lexeme :: rest, after.start, 0⟩ : Cursor).rest = lexeme :: rest := rfl
      rw [start_of_rest passed.rest, start_of_rest first]
  change Cursor.spanFrom ⟨front, after.start, 0⟩ (Cursor.start ⟨front, after.start, 0⟩) = _
  rw [begins, Cursor.spanFrom, Cursor.spanFrom, Nat.max_eq_right (Nat.zero_le _),
    Nat.max_eq_right h.reached]

/-- If the end of the file follows a construct instead of another token, it is still parsed to the
same tree. -/
theorem Rule.steady
    (rule : Rule)
    (other : rule ≠ .primaryExpression)
    (old : Symbol)
    {lexemes : List Lexeme} :
    rule.production.Replaces none lexemes old .endOfFile := by
  refine ⟨?_, fun _ lexeme _ => List.not_mem_nil⟩
  rw [rule.unsteady_production other]
  exact SymbolSet.not_mem_empty

/-- With more levels of nesting left, a construct is parsed all the same. -/
theorem Rule.parse_of_parseWithin
    {rule : Rule}
    {budget : Nat}
    {cursor after : Cursor}
    {tree : Tree}
    (within : budget ≤ maxNesting)
    (parsed : rule.parseWithin budget cursor = .ok tree after) :
    rule.parse cursor = .ok tree after := by
  rcases Production.run_filters within rule.production cursor with same | ⟨_, _, _, failed, -⟩
  · exact same.symm.trans parsed
  · exact nomatch failed.symm.trans parsed

end Oberon
