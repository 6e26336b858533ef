import Oberon.Parser.Parse
import Oberon.Proofs.Implements

/-!
# The rules of expressions

Terms, simple expressions, ranges, expressions and everything between brackets implement their rules
of the grammar, provided that factors implement theirs.  No rule refers to itself but through a
factor, so each lemma has those of the rules it refers to as its only premises.  The symbols that
can follow a construct decide whether an optional part of it is there; for every choice they are
told apart from the symbols that start the part by evaluation.

In three places the grammar and the productions put the same words in different forms: the bounds
of a range (`derives_bounds_iff`), the `?` of an index list (`derives_items_iff`) and the value of
a flag.
-/

namespace Oberon.Grammar

open Production Ebnf

/-- The symbols that can follow an expression inside another one. -/
def afterExpression : List Symbol :=
  [.mark .comma, .mark .rightParen, .mark .rightBracket, .mark .rightBrace, .endOfFile]

def afterRange : List Symbol := Symbol.relations ++ afterExpression

def afterSimple : List Symbol := [.mark .upto, .word .BY] ++ afterRange

def afterTerm : List Symbol := Symbol.addOperators ++ afterSimple

def afterFactor : List Symbol := Symbol.mulOperators ++ afterTerm

/-- Whether the lower bound or the rest of a range comes first makes no difference. -/
theorem derives_bounds_iff
    (bound rest : Ebnf)
    (word : List Symbol) :
    Derives (.alt rest (all [bound, Ebnf.optional rest])) word ↔
      Derives (.alt bound (.seq (Ebnf.optional bound) rest)) word := by
  constructor
  · intro h
    rcases derives_alt_iff.mp h with unbounded | bounds
    · exact .right (.seq (.right .nothing) unbounded)
    · obtain ⟨lower, others, rfl, bounded, more⟩ := derives_seq_iff.mp bounds
      obtain ⟨others, last, rfl, further, none⟩ := derives_seq_iff.mp more
      obtain rfl := derives_nothing_iff.mp none
      rw [List.append_nil]
      rcases derives_alt_iff.mp further with ranged | single
      · exact .right (.seq (.left bounded) ranged)
      · obtain rfl := derives_nothing_iff.mp single
        rw [List.append_nil]
        exact .left bounded
  · intro h
    rcases derives_alt_iff.mp h with single | ranged
    · rw [← List.append_nil word]
      exact .right (.seq single (.seq (.right .nothing) .nothing))
    · obtain ⟨lower, others, rfl, lowest, further⟩ := derives_seq_iff.mp ranged
      rcases derives_alt_iff.mp lowest with bounded | none
      · rw [← List.append_nil others]
        exact .right (.seq bounded (.seq (.left further) .nothing))
      · obtain rfl := derives_nothing_iff.mp none
        exact .left further

/-- A comma and a `?` after some items come after a list of items. -/
theorem derives_items_iff
    (question : Ebnf)
    (word : List Symbol) :
    Derives
      (all [.rule .expression,
        .seq (.repeated (.seq (.symbols [.mark .comma]) (.rule .expression)))
          (Ebnf.optional (.seq (.symbols [.mark .comma]) (.alt question (.symbols []))))])
      word ↔
    Derives
      (all [.rule .expressionList, Ebnf.optional (.seq (Ebnf.mark .comma) question)])
      word := by
  have exit : ∀ word, Derives (.alt question (.symbols [])) word ↔ Derives question word := by
    intro word
    simp
  constructor
  · intro h
    obtain ⟨item, more, rfl, first, h⟩ := derives_seq_iff.mp h
    obtain ⟨more, none, rfl, h, ended⟩ := derives_seq_iff.mp h
    obtain ⟨items, last, rfl, others, exited⟩ := derives_seq_iff.mp h
    have list : Derives (.rule .expressionList) (item ++ items) := .rule (.seq first others)
    rw [← List.append_assoc, ← List.append_assoc, List.append_assoc]
    refine .seq list (.seq ?_ ended)
    rcases derives_alt_iff.mp exited with exited | none
    · obtain ⟨comma, last, rfl, separator, exited⟩ := derives_seq_iff.mp exited
      exact .left (.seq separator ((exit last).mp exited))
    · exact .right none
  · intro h
    obtain ⟨list, more, rfl, listed, h⟩ := derives_seq_iff.mp h
    obtain ⟨last, none, rfl, exited, ended⟩ := derives_seq_iff.mp h
    obtain ⟨item, items, rfl, first, others⟩ := derives_seq_iff.mp (derives_rule_iff.mp listed)
    rw [List.append_assoc, ← List.append_assoc items]
    refine .seq first (.seq (.seq others ?_) ended)
    rcases derives_alt_iff.mp exited with exited | none
    · obtain ⟨comma, last, rfl, separator, exited⟩ := derives_seq_iff.mp exited
      exact .left (.seq separator ((exit last).mpr exited))
    · exact .right none

section Operands

variable
  {budget bound : Nat}
  (factors : Implements budget bound factor (.rule .factor) afterFactor)
include factors

theorem implements_term : Implements budget bound term (.rule .term) afterTerm := by
  refine .rule (implements_assemble (implements_seq ?_ (implements_seq ?_ implements_empty)))
  · exact implements_part (factors.before rfl)
  · refine implements_many ?_ rfl rfl rfl
    exact implements_seq implements_token
      (implements_seq (implements_part (factors.before rfl)) implements_empty)

theorem implements_simple :
    Implements budget bound simpleExpression (.rule .simple) afterSimple := by
  have terms := implements_term factors
  refine .rule (implements_assemble (implements_seq ?_ (implements_seq ?_ implements_empty)))
  · exact implements_part (terms.before rfl)
  · refine implements_many ?_ rfl rfl rfl
    exact implements_seq implements_token
      (implements_seq (implements_part (terms.before rfl)) implements_empty)

/-- The `..` of a range and what comes after it. -/
theorem implements_rangeRest :
    Implements budget bound rangeRest
      (all [Ebnf.mark .upto, Ebnf.optional (.rule .simple),
        Ebnf.optional (all [Ebnf.word .BY, .rule .simple])])
      afterRange := by
  have simples := implements_simple factors
  refine implements_seq implements_token (implements_seq (.swap ?_) (implements_seq ?_
    implements_empty))
  · exact implements_branch implements_empty (implements_part (simples.before rfl)) rfl rfl
  · refine implements_branch ?_ implements_empty rfl rfl
    exact implements_seq implements_token
      (implements_seq (implements_part (simples.before rfl)) implements_empty)

theorem implements_range : Implements budget bound rangeExpression (.rule .range) afterRange := by
  have simples := implements_simple factors
  have rests := implements_rangeRest factors
  have choice : Implements budget bound rangeExpression _ afterRange :=
    implements_assemble (implements_branch implements_token
      (implements_branch rests
        (implements_seq (implements_part (simples.before rfl))
          (implements_seq (implements_branch rests implements_empty rfl rfl) implements_empty))
        rfl rfl) rfl rfl)
  refine .rule (choice.congr ?_)
  intro word
  rw [derives_alt_iff]
  exact or_congr Iff.rfl (derives_bounds_iff _ _ word) |>.trans derives_alt_iff.symm

theorem implements_expression :
    Implements budget bound expression (.rule .expression) afterExpression := by
  have ranges := implements_range factors
  refine .rule (implements_assemble (implements_seq ?_ (implements_seq ?_ implements_empty)))
  · exact implements_part (ranges.before rfl)
  · refine implements_branch ?_ implements_empty rfl rfl
    exact implements_seq implements_token
      (implements_seq (implements_part (ranges.before rfl)) implements_empty)

theorem implements_expressionList :
    Implements budget bound expressionList (.rule .expressionList)
      [.mark .rightParen, .mark .rightBracket] := by
  have expressions := implements_expression factors
  exact .rule (implements_assemble
    (implements_sepBy (implements_part (expressions.before rfl)) rfl))

theorem implements_call
    (rule : String)
    (follow : List Symbol) :
    Implements budget bound
      (Production.all [
        Production.mark .opening .leftParen rule,
        .branch [.mark .rightParen] .empty (.part .arguments expressionList),
        Production.mark .closing .rightParen rule])
      (.rule .call) follow := by
  have lists := implements_expressionList factors
  refine .rule (implements_seq implements_token (implements_seq (.swap ?_)
    (implements_seq implements_token implements_empty)))
  exact implements_branch implements_empty (implements_part (lists.before rfl)) rfl rfl

theorem implements_indexListRest :
    Implements budget bound indexListRest
      (Ebnf.optional (all [Ebnf.mark .comma, .rule .expressionList])) [.mark .rightBracket] := by
  have lists := implements_expressionList factors
  refine implements_branch ?_ implements_empty rfl rfl
  exact implements_seq implements_token
    (implements_seq (implements_part (lists.before rfl)) implements_empty)

theorem implements_indexList :
    Implements budget bound indexList (.rule .indexList) [.mark .rightBracket] := by
  have expressions := implements_expression factors
  have rests := implements_indexListRest factors
  have questions := implements_seq (@implements_token budget bound _ .question [.mark .question]
    (.missing (.mark .question) "index list")) (implements_seq rests implements_empty)
  have exits := @implements_branch _ _ _ _ _ _ _ _ [.mark .question] questions
    (@implements_fail _ _ _ _ (.missing (.mark .comma) "list")) rfl rfl
  have items : Implements budget bound (.part .item expression) (.rule .expression)
      [.mark .comma, .mark .rightBracket] := implements_part (expressions.before rfl)
  have steps := @implements_tail _ _ _ _ _ .separator .firstComma _ _ _ _ _ items exits rfl rfl
  have choice : Implements budget bound indexList _ [.mark .rightBracket] :=
    implements_assemble (implements_branch questions
      (implements_seq (implements_part (expressions.before (by rfl)))
        (implements_seq (steps.before (by rfl)) implements_empty)) rfl (by rfl))
  refine .rule (choice.congr ?_)
  intro word
  rw [derives_alt_iff]
  exact or_congr Iff.rfl (derives_items_iff _ word) |>.trans derives_alt_iff.symm

theorem implements_array
    (follow : List Symbol) :
    Implements budget (bound + 1) array (.rule .array) follow := by
  have lists := implements_expressionList factors
  exact .rule (implements_assemble (implements_token_seq
    (implements_seq (implements_part (lists.before rfl))
      (implements_seq implements_token implements_empty))))

omit factors in
/-- Items between braces, as in sets and flags. -/
theorem implements_braced
    {kind : Kind}
    {item : Production .construct}
    {name : Nonterminal}
    {rule : String}
    (items : Implements budget bound item (.rule name) [.mark .comma, .mark .rightBrace])
    (outside : (name.starts.all (· ∉ [Symbol.mark .rightBrace])) = true)
    (follow : List Symbol) :
    Implements budget (bound + 1) (braced kind item rule)
      (all [Ebnf.mark .leftBrace, Ebnf.optional (commaSeparated (.rule name)),
        Ebnf.mark .rightBrace])
      follow := by
  refine implements_assemble (implements_token_seq (implements_seq (.swap ?_)
    (implements_seq implements_token implements_empty)))
  refine implements_branch implements_empty
    (implements_sepBy (implements_part (items.before rfl)) rfl) rfl ?_
  simpa [ahead, commaSeparated, Ebnf.mark, Ebnf.first, nullable] using outside

theorem implements_set
    (follow : List Symbol) :
    Implements budget (bound + 1) set (.rule .set) follow :=
  .rule (implements_braced ((implements_range factors).before rfl) rfl follow)

theorem implements_flag :
    Implements budget bound flag (.rule .flag) [.mark .comma, .mark .rightBrace] := by
  have expressions := implements_expression factors
  have value : Implements budget bound
      (choose [
        ([.mark .leftParen], Production.all [
          Production.mark .opening .leftParen "flag",
          .part .value expression,
          Production.mark .closing .rightParen "flag"]),
        ([.mark .equal], Production.all [
          Production.mark .opening .equal "flag", .part .value expression])]
        .empty) _ [.mark .comma, .mark .rightBrace] :=
    implements_branch
      (implements_seq implements_token (implements_seq (implements_part (expressions.before rfl))
        (implements_seq implements_token implements_empty)))
      (implements_branch
        (implements_seq implements_token
          (implements_seq (implements_part (expressions.before rfl)) implements_empty))
        implements_empty rfl rfl) rfl rfl
  refine .rule (implements_assemble (implements_seq implements_token (implements_seq
    (value.congr ?_) implements_empty)))
  intro word
  rw [derives_alt_iff, derives_alt_iff, ← or_assoc, ← derives_alt_iff]
  exact derives_alt_iff.symm

theorem implements_flags
    (follow : List Symbol) :
    Implements budget (bound + 1) flags (.rule .flags) follow :=
  .rule (implements_braced (implements_flag factors) rfl follow)

theorem implements_operation
    (follow : List Symbol) :
    Implements budget bound selector (.rule .operation) follow := by
  have indexes := implements_indexList factors
  refine .rule (implements_branch (implements_assemble (implements_call factors _ _))
    (implements_branch (implements_assemble ?_)
      (implements_branch (implements_assemble ?_) (implements_assemble (.single ?_)) rfl rfl)
      rfl rfl) rfl rfl)
  · refine implements_seq implements_token (implements_seq (.swap ?_)
      (implements_seq implements_token implements_empty))
    exact implements_branch implements_empty (implements_part (indexes.before rfl)) rfl rfl
  · exact implements_seq implements_token (implements_seq implements_token implements_empty)
  · exact implements_seq implements_token implements_empty

/-- Selectors, if there are any. -/
theorem implements_operations :
    Implements budget bound (Production.optional selectorStarts (.part .selectors selectors))
      (.repeated (.rule .operation)) (.mark .leftBrace :: afterFactor) := by
  have several : Implements budget bound (.part .selectors selectors)
      (.repeated (.rule .operation)) (.mark .leftBrace :: afterFactor) := by
    refine implements_part (implements_assemble (.single (implements_seq ?_ implements_empty)))
    exact implements_many (implements_part (implements_operation factors _)) rfl rfl rfl
  refine ⟨?_, ?_⟩
  · intro cursor after output reads
    cases reads with
    | first _ inner => exact several.sound inner
    | second _ inner =>
      cases inner
      exact ⟨[], rfl, .stop⟩
  · intro cursor word rest derived short split after
    rcases derived.starts with ⟨rfl, -⟩ | ⟨symbol, more, rfl, member⟩
    · have refused : cursor.symbol ∉ selectorStarts := by
        have none : ∀ symbol ∈ Symbol.mark .leftBrace :: afterFactor, symbol ∉ selectorStarts := by
          decide
        rw [cursor.symbol_eq_next, split]
        exact none _ after
      exact ⟨[], cursor, .second refused .empty, split⟩
    · obtain ⟨output, last, reads, ends⟩ := several.complete cursor derived short split after
      have chosen : cursor.symbol ∈ selectorStarts := by
        have all : ∀ symbol ∈ Nonterminal.operation.starts, symbol ∈ selectorStarts := by decide
        rw [cursor.symbol_eq_next, split]
        exact all _ member
      exact ⟨output, last, .first chosen reads, ends⟩

end Operands

end Oberon.Grammar
