import Oberon.Proofs.ExpressionRules
import Oberon.Proofs.Nesting
import Oberon.Proofs.Place

/-!
# The parser of expressions accepts its grammar

A list of tokens is parsed as an expression exactly if the grammar derives its symbols, unless the
parser complains about too deep nesting (`Rule.expression_accepts_iff`).

What remains to be shown for this are factors, by induction on the levels that are left
(`Grammar.factors_implemented`).  A factor is not read as the grammar derives it: in `SIZE OF a.b`
the operand takes the selectors, in the grammar they can belong to `SIZE OF a` as well.  A `Trail`
is what such factors leave to each other, and the invariant is that a factor takes a part of the
trail behind it and leaves a trail again (`Grammar.ReadsFactors`).  The other difficulty is `NEW`,
which is a name before a parenthesis and starts an allocation otherwise.
-/

namespace Oberon.Grammar

open Production Ebnf

/-- What can follow a primary expression, a number of times over: selectors and flags. -/
inductive Trail : Nat → List Symbol → Prop
  | none : Trail 0 []
  | more
      {times : Nat}
      {operations flags rest : List Symbol}
      (operated : Derives (.repeated (.rule .operation)) operations)
      (flagged : Derives (Ebnf.optional (.rule .flags)) flags)
      (others : Trail times rest) :
      Trail (times + 1) (operations ++ (flags ++ rest))

theorem Trail.succ
    {times : Nat}
    {word : List Symbol}
    (h : Trail times word) :
    Trail (times + 1) word :=
  .more .stop (.right .nothing) h

/-- As many selectors as possible, then flags; without flags, nothing is left. -/
theorem Trail.greedy
    {times : Nat}
    {word : List Symbol}
    (h : Trail (times + 1) word) :
    ∃ operations flags rest, word = operations ++ (flags ++ rest) ∧
      Derives (.repeated (.rule .operation)) operations ∧ Trail times rest ∧
      (Derives (.rule .flags) flags ∨ flags = [] ∧ rest = []) := by
  induction times generalizing word with
  | zero =>
    cases h with
    | more operated flagged others =>
      cases others
      refine ⟨_, _, [], rfl, operated, .none, ?_⟩
      rcases derives_alt_iff.mp flagged with flagged | absent
      · exact .inl flagged
      · exact .inr ⟨derives_nothing_iff.mp absent, rfl⟩
  | succ times ih =>
    cases h with
    | @more _ operations _ _ operated flagged others =>
      rcases derives_alt_iff.mp flagged with flagged | absent
      · exact ⟨_, _, _, rfl, operated, others, .inl flagged⟩
      · obtain rfl := derives_nothing_iff.mp absent
        -- without flags in between, the selectors that follow are read at once
        obtain ⟨operations', flags, rest, rfl, operated', others, last⟩ := ih others
        refine ⟨operations ++ operations', flags, rest, ?_,
          derives_repeated_append operated operated', others.succ, last⟩
        simp

/-- A trail starts with a selector or a flag. -/
theorem Trail.next_mem
    {times : Nat}
    {trail rest : List Symbol}
    (h : Trail times trail)
    (after : next rest ∈ afterFactor) :
    next (trail ++ rest) ∈
      Nonterminal.operation.starts ++ (Nonterminal.flags.starts ++ afterFactor) := by
  induction h with
  | none => exact List.mem_append_right _ (List.mem_append_right _ after)
  | more operated flagged _ ih =>
    rw [List.append_assoc, List.append_assoc]
    rcases operated.starts with ⟨rfl, -⟩ | ⟨symbol, more, rfl, member⟩
    · rcases flagged.starts with ⟨rfl, -⟩ | ⟨symbol, more, rfl, member⟩
      · exact ih
      · have brace : symbol ∈ Nonterminal.flags.starts := by
          simpa [Ebnf.optional, Ebnf.first] using member
        exact List.mem_append_right _ (List.mem_append_left _ brace)
    · exact List.mem_append_left _ member

/-- After factors of a limited length with something that can follow a primary expression, part of
what follows is read as well. -/
def ReadsFactors (budget bound : Nat) : Prop :=
  ∀ (cursor : Cursor) {times : Nat} {word trail rest : List Symbol},
    Derives (.rule .factor) word → Trail times trail → word.length + trail.length ≤ bound →
    cursor.symbols = word ++ (trail ++ rest) → next rest ∈ afterFactor →
    ReadsTo budget factor cursor fun symbols =>
      ∃ left, Trail times left ∧ left.length ≤ bound ∧ symbols = left ++ rest

section Designators

variable
  {budget bound : Nat}
  (factors : Implements budget bound factor (.rule .factor) afterFactor)
include factors

/-- One helping of selectors and flags is read. -/
theorem reads_designation
    {cursor : Cursor}
    {times : Nat}
    {trail rest : List Symbol}
    (h : Trail (times + 1) trail)
    (short : trail.length ≤ bound)
    (split : cursor.symbols = trail ++ rest)
    (after : next rest ∈ afterFactor) :
    ReadsTo budget
      (Production.all
        [Production.optional selectorStarts (.part .selectors selectors), optionalFlags])
      cursor
      fun symbols => ∃ left, Trail times left ∧ left.length ≤ bound ∧
        symbols = left ++ rest := by
  obtain ⟨operations, flags, left, rfl, operated, others, last⟩ := h.greedy
  simp only [List.length_append] at short
  simp only [List.append_assoc] at split
  have next : next (flags ++ (left ++ rest)) ∈ Symbol.mark .leftBrace :: afterFactor := by
    rcases last with flagged | ⟨rfl, rfl⟩
    · exact List.mem_cons.mpr (.inl (List.mem_singleton.mp (flagged.next_mem_first rfl)))
    · exact List.mem_cons_of_mem _ after
  have front : ReadsTo budget
      (Production.optional selectorStarts (.part .selectors selectors)) cursor
      (· = flags ++ (left ++ rest)) :=
    (implements_operations factors).complete cursor operated (by omega) split next
  refine front.seq ?_
  intro middle split'
  have back : ReadsTo budget optionalFlags middle (· = left ++ rest) := by
    rcases last with flagged | ⟨rfl, rfl⟩
    · have brace : middle.symbol ∈ [Symbol.mark .leftBrace] := by
        rw [middle.symbol_eq_next, split']
        exact flagged.next_mem_first rfl
      refine .first brace (.part ?_)
      exact (implements_flags factors [Ebnf.next (left ++ rest)]).complete middle flagged
        (by omega) split' List.mem_cons_self
    · have other : middle.symbol ∉ [Symbol.mark .leftBrace] := by
        have none : ∀ symbol ∈ afterFactor, symbol ∉ [Symbol.mark .leftBrace] := by decide
        rw [middle.symbol_eq_next, split']
        exact none _ after
      exact .second other (.empty split')
  refine back.seq ?_
  intro last ends
  exact .empty ⟨left, others, by omega, ends⟩

omit factors in
theorem implements_qualified :
    Implements budget bound qualifiedIdentifier (.rule .qualified) [.mark .leftParen] := by
  refine .rule (implements_assemble (implements_seq implements_token (implements_seq
    (implements_branch ?_ implements_empty rfl rfl) implements_empty)))
  exact implements_seq implements_token (implements_seq implements_token implements_empty)

omit factors in
/-- The word `OF` and an operand are read, and perhaps some of what follows. -/
theorem reads_operand
    (operands : ReadsFactors budget bound)
    (rule : String)
    {cursor : Cursor}
    {times : Nat}
    {word trail rest : List Symbol}
    (derived : Derives (.rule .factor) word)
    (h : Trail times trail)
    (short : word.length + trail.length ≤ bound)
    (split : cursor.symbols = .word .OF :: (word ++ (trail ++ rest)))
    (after : next rest ∈ afterFactor) :
    ReadsTo budget
      (Production.all [Production.word .ofWord .OF rule, .part .operand factor]) cursor
      fun symbols => ∃ left, Trail times left ∧ left.length ≤ bound ∧
        symbols = left ++ rest := by
  have front : ReadsTo budget (Production.word .ofWord .OF rule) cursor
      (· = word ++ (trail ++ rest)) := .token split List.mem_cons_self rfl
  refine front.seq ?_
  intro middle split'
  refine (operands middle derived h short split' after).part.seq ?_
  intro last ends
  exact .empty ends

omit factors in
theorem derives_operand_iff
    {word : List Symbol} :
    Derives (all [Ebnf.word .OF, .rule .factor]) word ↔
      ∃ operand, word = .word .OF :: operand ∧ Derives (.rule .factor) operand := by
  constructor
  · intro h
    obtain ⟨others, rfl, derived⟩ := derives_symbol_seq_iff.mp h
    obtain ⟨operand, none, rfl, factored, ended⟩ := derives_seq_iff.mp derived
    obtain rfl := derives_nothing_iff.mp ended
    exact ⟨operand ++ [], rfl, by rwa [List.append_nil]⟩
  · rintro ⟨operand, rfl, factored⟩
    rw [← List.append_nil operand]
    exact derives_symbol_seq_iff.mpr ⟨_, rfl, .seq factored .nothing⟩

omit factors in
/-- A word that inquires is read, with its operand if there is one. -/
theorem reads_inquiry
    (operands : ReadsFactors budget bound)
    {cursor : Cursor}
    {times : Nat}
    {word trail rest : List Symbol}
    (derived : Derives
      (all [.symbols [.word .ADDRESS, .word .SIZE],
        Ebnf.optional (all [Ebnf.word .OF, .rule .factor])]) word)
    (h : Trail times trail)
    (short : word.length + trail.length ≤ bound + 1)
    (split : cursor.symbols = word ++ (trail ++ rest))
    (after : next rest ∈ afterFactor) :
    ReadsTo budget
      (Production.all [
        oneOf .keyword [.word .ADDRESS, .word .SIZE] "inquiry",
        Production.optional [.word .OF]
          (Production.all [Production.word .ofWord .OF "inquiry", .part .operand factor])])
      cursor
      fun symbols => ∃ left, Trail times left ∧ left.length ≤ bound ∧
        symbols = left ++ rest := by
  obtain ⟨keyword, more, rfl, first, others⟩ := derives_seq_iff.mp derived
  obtain ⟨symbol, chosen, rfl⟩ := derives_symbols_iff.mp first
  obtain ⟨more, none, rfl, further, ended⟩ := derives_seq_iff.mp others
  obtain rfl := derives_nothing_iff.mp ended
  simp only [List.append_nil, List.length_append, List.length_cons, List.length_nil] at short split
  have front : ReadsTo budget (oneOf .keyword [.word .ADDRESS, .word .SIZE] "inquiry") cursor
      (· = more ++ (trail ++ rest)) := .token split chosen rfl
  refine front.seq ?_
  intro middle split'
  have back : ReadsTo budget (Production.optional [.word .OF]
      (Production.all [Production.word .ofWord .OF "inquiry", .part .operand factor])) middle
      fun symbols => ∃ left, Trail times left ∧ left.length ≤ bound ∧
        symbols = left ++ rest := by
    rcases derives_alt_iff.mp further with operated | absent
    · obtain ⟨operand, rfl, factored⟩ := derives_operand_iff.mp operated
      have word : middle.symbol ∈ [Symbol.word .OF] := by
        rw [middle.symbol_eq_next, split']
        exact List.mem_cons_self
      simp only [List.length_cons] at short
      exact .first word (reads_operand operands _ factored h (by omega) split' after)
    · obtain rfl := derives_nothing_iff.mp absent
      have other : middle.symbol ∉ [Symbol.word .OF] := by
        have none : ∀ symbol ∈ Nonterminal.operation.starts ++
            (Nonterminal.flags.starts ++ afterFactor), symbol ∉ [Symbol.word .OF] := by
          decide
        rw [middle.symbol_eq_next, split']
        exact none _ (h.next_mem after)
      exact .second other (.empty ⟨trail, h, by omega, split'⟩)
  refine back.seq ?_
  intro last ends
  exact .empty ends

/-- The type and the arguments of an allocation. -/
theorem implements_allocated
    (follow : List Symbol) :
    Implements budget bound
      (Production.all [
        .part .typeName qualifiedIdentifier,
        Production.mark .opening .leftParen "NEW expression",
        .branch [.mark .rightParen] .empty (.part .arguments expressionList),
        Production.mark .closing .rightParen "NEW expression"])
      (all [.rule .qualified, .rule .call]) follow := by
  have call := implements_call factors "NEW expression" follow
  refine (implements_seq (implements_part implements_qualified) call).congr ?_
  intro word
  simp [Ebnf.all]

/-- `NEW` with a type and arguments is read. -/
theorem reads_allocation
    {cursor : Cursor}
    {word rest : List Symbol}
    (derived : Derives (all [Ebnf.word .NEW, .rule .qualified, .rule .call]) word)
    (short : word.length ≤ bound + 1)
    (split : cursor.symbols = word ++ rest) :
    ReadsTo budget
      (Production.all [
        Production.word .keyword .NEW "NEW expression",
        .branch [.mark .leftParen] .empty (Production.all [
          .part .typeName qualifiedIdentifier,
          Production.mark .opening .leftParen "NEW expression",
          .branch [.mark .rightParen] .empty (.part .arguments expressionList),
          Production.mark .closing .rightParen "NEW expression"])])
      cursor (· = rest) := by
  obtain ⟨keyword, more, rfl, first, others⟩ := derives_seq_iff.mp derived
  obtain ⟨symbol, chosen, rfl⟩ := derives_symbols_iff.mp first
  rw [List.length_append, List.length_singleton] at short
  rw [List.append_assoc] at split
  have front : ReadsTo budget (Production.word .keyword .NEW "NEW expression") cursor
      (· = more ++ rest) := .token split chosen rfl
  refine front.seq ?_
  intro middle split'
  have other : middle.symbol ∉ [Symbol.mark .leftParen] := by
    have none : ∀ symbol ∈ (all [.rule .qualified, .rule .call]).first,
        symbol ∉ [Symbol.mark .leftParen] := by
      decide
    rw [middle.symbol_eq_next, split']
    exact none _ (others.next_mem_first rfl)
  obtain ⟨trees, last, reads, ends⟩ := (implements_allocated factors [next rest]).complete middle
    others (by omega) split' List.mem_cons_self
  exact ⟨_, last, .seq (.second other reads) .empty, ends⟩

/-- A primary expression is read, and of what follows an operand at its end perhaps something. -/
theorem reads_primary
    (operands : ReadsFactors budget bound)
    {cursor : Cursor}
    {times : Nat}
    {word trail rest : List Symbol}
    (derived : Derives (.rule .primary) word)
    (h : Trail times trail)
    (short : word.length + trail.length ≤ bound + 1)
    (split : cursor.symbols = word ++ (trail ++ rest))
    (after : next rest ∈ afterFactor) :
    ReadsTo budget primaryExpression cursor fun symbols =>
      ∃ left, Trail times left ∧ left.length ≤ bound ∧ symbols = left ++ rest := by
  have some := List.length_pos_iff.mpr (derived.ne_nil rfl)
  have member : ∀ {form : Ebnf}, Derives form word → form.nullable = false →
      cursor.symbol ∈ form.first := by
    intro form derived filled
    rw [cursor.symbol_eq_next, split]
    exact derived.next_mem_first filled
  have closed : ∀ {production : Production .construct} {form : Ebnf}, Derives form word →
      Implements budget (bound + 1) production form [next (trail ++ rest)] →
      ReadsTo budget production cursor fun symbols =>
        ∃ left, Trail times left ∧ left.length ≤ bound ∧ symbols = left ++ rest := by
    intro production form derived implements
    obtain ⟨tree, last, reads, ends⟩ :=
      implements.complete cursor derived (by omega) split List.mem_cons_self
    exact ⟨tree, last, reads, trail, h, by omega, ends⟩
  rcases derives_alt_iff.mp (derives_rule_iff.mp derived) with literal | derived
  · refine .choose 0 (member literal rfl) rfl rfl rfl (closed literal ?_)
    exact implements_assemble (.single (implements_seq implements_token implements_empty))
  rcases derives_alt_iff.mp derived with set | derived
  · exact .choose 1 (member set rfl) rfl rfl rfl (closed set (implements_set factors _))
  rcases derives_alt_iff.mp derived with array | derived
  · exact .choose 2 (member array rfl) rfl rfl rfl (closed array (implements_array factors _))
  rcases derives_alt_iff.mp derived with atom | derived
  · refine .choose 3 (member atom rfl) rfl rfl rfl (closed atom ?_)
    exact implements_assemble (.single (implements_seq implements_token implements_empty))
  rcases derives_alt_iff.mp derived with inquiry | derived
  · refine .choose 4 (member inquiry rfl) rfl rfl rfl (.assemble ?_)
    exact reads_inquiry operands inquiry h short split after
  rcases derives_alt_iff.mp derived with synonym | derived
  · refine .choose 5 (member synonym rfl) rfl rfl rfl (.assemble ?_)
    obtain ⟨keyword, more, rfl, first, others⟩ := derives_seq_iff.mp synonym
    obtain ⟨symbol, chosen, rfl⟩ := derives_symbols_iff.mp first
    obtain ⟨operand, rfl, factored⟩ := derives_operand_iff.mp others
    simp only [List.length_append, List.length_cons, List.length_nil] at short
    have front : ReadsTo budget (Production.word .keyword .ALIAS "ALIAS OF expression") cursor
        (· = .word .OF :: (operand ++ (trail ++ rest))) := .token split chosen rfl
    refine front.seq ?_
    intro middle split'
    exact reads_operand operands _ factored h (by omega) split' after
  rcases derives_alt_iff.mp derived with allocation | parenthesis
  · refine .choose 6 (member allocation rfl) rfl rfl rfl (.assemble ?_)
    exact (reads_allocation factors allocation (by omega) split).mono
      fun symbols same => ⟨trail, h, by omega, same⟩
  · refine .choose 7 (member parenthesis rfl) rfl rfl rfl (closed parenthesis ?_)
    exact implements_assemble (implements_token_seq
      (implements_seq (implements_part ((implements_expression factors).before rfl))
        (implements_seq implements_token implements_empty)))

omit factors in
/-- `NEW` directly before a parenthesis is read alone. -/
theorem reads_new
    {cursor : Cursor}
    {symbol : Symbol}
    {rest : List Symbol}
    (chosen : symbol ∈ [Symbol.word .NEW])
    (split : cursor.symbols = symbol :: rest)
    (called : next rest = .mark .leftParen) :
    ReadsTo budget primaryExpression cursor (· = rest) := by
  have member : cursor.symbol ∈ [Symbol.word .NEW] := by
    rw [cursor.symbol_eq_next, split]
    exact chosen
  have front : ReadsTo budget (Production.word .keyword .NEW "NEW expression") cursor
      (· = rest) := .token split chosen rfl
  refine .choose 6 member rfl rfl rfl (.assemble (front.seq ?_))
  intro middle split'
  have parenthesis : middle.symbol ∈ [Symbol.mark .leftParen] := by
    rw [middle.symbol_eq_next, split', called]
    exact List.mem_cons_self
  exact ⟨_, middle, .seq (.first parenthesis .empty) .empty, split'⟩

/-- A designator is read, and one helping of selectors and flags. -/
theorem reads_unary
    (operands : ReadsFactors budget bound)
    {cursor : Cursor}
    {times : Nat}
    {word trail rest : List Symbol}
    (derived : Derives (.rule .unary) word)
    (h : Trail times trail)
    (short : word.length + trail.length ≤ bound + 1)
    (split : cursor.symbols = word ++ (trail ++ rest))
    (after : next rest ∈ afterFactor) :
    ReadsTo budget unaryExpression cursor fun symbols =>
      ∃ left, Trail times left ∧ left.length ≤ bound ∧ symbols = left ++ rest := by
  have follows : ∀ {operations flags : List Symbol},
      Derives (.repeated (.rule .operation)) operations →
      Derives (all [Ebnf.optional (.rule .flags)]) flags →
      Trail (times + 1) (operations ++ (flags ++ trail)) := by
    intro operations flags operated flagged
    refine .more operated ?_ h
    simpa [Ebnf.all] using flagged
  rcases derives_alt_iff.mp (derives_rule_iff.mp derived) with primary | new
  · obtain ⟨word, more, rfl, first, others⟩ := derives_seq_iff.mp primary
    obtain ⟨operations, flags, rfl, operated, flagged⟩ := derives_seq_iff.mp others
    simp only [List.append_assoc, List.length_append] at short split
    rw [← List.append_assoc flags, ← List.append_assoc operations] at split
    have front := reads_primary factors operands first (follows operated flagged)
      (by simp only [List.length_append]; omega) split after
    refine .assemble (front.part.seq ?_)
    rintro middle ⟨left, others, short, split⟩
    exact reads_designation factors others short split after
  · obtain ⟨word, more, rfl, first, others⟩ := derives_seq_iff.mp new
    obtain ⟨symbol, chosen, rfl⟩ := derives_symbols_iff.mp first
    obtain ⟨call, more, rfl, called, others⟩ := derives_seq_iff.mp others
    obtain ⟨operations, flags, rfl, operated, flagged⟩ := derives_seq_iff.mp others
    simp only [List.append_assoc, List.length_append, List.length_cons, List.length_nil]
      at short split
    rw [← List.append_assoc flags, ← List.append_assoc operations, ← List.append_assoc call,
      ← List.append_assoc call] at split
    have trailed := follows (.more (.rule (.left called)) operated) flagged
    have front : ReadsTo budget primaryExpression cursor
        (· = call ++ operations ++ (flags ++ trail) ++ rest) := by
      refine reads_new chosen split ?_
      rw [List.append_assoc, List.append_assoc]
      exact List.mem_singleton.mp (called.next_mem_first rfl)
    refine .assemble (front.part.seq ?_)
    intro middle split
    exact reads_designation factors trailed (by simp only [List.length_append]; omega) split after

/-- What is read after `NEW` are a type and arguments, or a parenthesis comes next. -/
theorem sound_new
    {cursor after : Cursor}
    {tree : Tree}
    (reads : Reads budget
      (.assemble .allocation (Production.all [
        Production.word .keyword .NEW "NEW expression",
        .branch [.mark .leftParen] .empty (Production.all [
          .part .typeName qualifiedIdentifier,
          Production.mark .opening .leftParen "NEW expression",
          .branch [.mark .rightParen] .empty (.part .arguments expressionList),
          Production.mark .closing .rightParen "NEW expression"])]))
      cursor tree after) :
    (∃ word, cursor.symbols = word ++ after.symbols ∧
      Derives (all [Ebnf.word .NEW, .rule .qualified, .rule .call]) word) ∨
      (cursor.symbols = .word .NEW :: after.symbols ∧
        next after.symbols = .mark .leftParen) := by
  cases reads with
  | assemble parts =>
    cases parts with
    | seq first others =>
      cases others with
      | seq choice ended =>
        cases ended
        cases first with
        | @token _ _ _ _ lexeme rest _ _ fits =>
          rcases choice.of_branch with ⟨parenthesis, bare⟩ | ⟨-, given⟩
          · cases bare
            refine .inr ⟨?_, ?_⟩
            · exact congrArg (· :: rest.map (·.symbol)) (List.mem_singleton.mp fits)
            · rw [← Cursor.symbol_eq_next]
              exact List.mem_singleton.mp parenthesis
          · obtain ⟨word, split, derived⟩ := (implements_allocated factors []).sound given
            refine .inl ⟨lexeme.symbol :: word, ?_, .seq (.symbols fits) derived⟩
            exact congrArg (List.cons lexeme.symbol) split

/-- What is read as a primary expression is one, or `NEW` before a parenthesis. -/
theorem sound_primary
    {cursor after : Cursor}
    {tree : Tree}
    (reads : Reads budget primaryExpression cursor tree after) :
    (∃ word, cursor.symbols = word ++ after.symbols ∧ Derives (.rule .primary) word) ∨
      (cursor.symbols = .word .NEW :: after.symbols ∧
        next after.symbols = .mark .leftParen) := by
  have single : ∀ {assembly : Assembly} {role : Role} {symbols : List Symbol} {reason : Reason},
      Implements budget bound
        (.assemble assembly (Production.all [.token role symbols reason])) (.symbols symbols) [] :=
    implements_assemble (.single (implements_seq implements_token implements_empty))
  have operand : ∀ rule, Implements budget bound
      (Production.all [Production.word .ofWord .OF rule, .part .operand factor])
      (all [Ebnf.word .OF, .rule .factor]) [] := fun rule =>
    implements_seq implements_token
      (implements_seq (implements_part (factors.before rfl)) implements_empty)
  rcases reads.of_branch with ⟨-, literal⟩ | ⟨-, reads⟩
  · obtain ⟨word, split, derived⟩ := literal.derives single
    exact .inl ⟨word, split, .rule (.left derived)⟩
  rcases reads.of_branch with ⟨-, set⟩ | ⟨-, reads⟩
  · obtain ⟨word, split, derived⟩ := (implements_set factors []).sound set
    exact .inl ⟨word, split, .rule (.right (.left derived))⟩
  rcases reads.of_branch with ⟨-, array⟩ | ⟨-, reads⟩
  · obtain ⟨word, split, derived⟩ := (implements_array factors []).sound array
    exact .inl ⟨word, split, .rule (.right (.right (.left derived)))⟩
  rcases reads.of_branch with ⟨-, atom⟩ | ⟨-, reads⟩
  · obtain ⟨word, split, derived⟩ := atom.derives single
    exact .inl ⟨word, split, .rule (.right (.right (.right (.left derived))))⟩
  rcases reads.of_branch with ⟨-, inquiry⟩ | ⟨-, reads⟩
  · obtain ⟨word, split, derived⟩ := inquiry.derives (implements_assemble
      (implements_seq implements_token (implements_seq
        (implements_branch (operand _) implements_empty (by rfl) (by rfl)) implements_empty)))
    exact .inl ⟨word, split, .rule (.right (.right (.right (.right (.left derived)))))⟩
  rcases reads.of_branch with ⟨-, synonym⟩ | ⟨-, reads⟩
  · obtain ⟨word, split, derived⟩ := synonym.derives (implements_assemble
      (implements_seq implements_token (operand _)))
    exact .inl ⟨word, split, .rule (.right (.right (.right (.right (.right (.left derived))))))⟩
  rcases reads.of_branch with ⟨-, new⟩ | ⟨-, reads⟩
  · rcases sound_new factors new with ⟨word, split, derived⟩ | bare
    · exact .inl ⟨word, split,
        .rule (.right (.right (.right (.right (.right (.right (.left derived)))))))⟩
    · exact .inr bare
  rcases reads.of_branch with ⟨-, parenthesis⟩ | ⟨-, nowhere⟩
  · obtain ⟨word, split, derived⟩ := parenthesis.derives (implements_assemble
      (implements_seq implements_token (implements_seq
        (implements_part ((implements_expression factors).before (by rfl)))
        (implements_seq implements_token implements_empty))))
    exact .inl ⟨word, split,
      .rule (.right (.right (.right (.right (.right (.right (.right derived)))))))⟩
  · cases nowhere

omit factors in
/-- An operation that starts with a parenthesis is a call. -/
theorem derives_call
    {word rest : List Symbol}
    (derived : Derives (.rule .operation) word)
    (called : next (word ++ rest) = .mark .leftParen) :
    Derives (.rule .call) word := by
  rcases derives_alt_iff.mp (derives_rule_iff.mp derived) with call | other
  · exact call
  · have member := @Derives.next_mem_first _ _ rest other rfl
    rw [called] at member
    exact absurd member (by decide)

/-- Before a parenthesis, the selectors that are read start with a call. -/
theorem sound_operations
    {cursor after : Cursor}
    {trees : List Tree}
    (reads : Reads budget
      (Production.optional selectorStarts (.part .selectors selectors)) cursor trees after)
    (called : cursor.symbol = .mark .leftParen) :
    ∃ call operations, cursor.symbols = call ++ (operations ++ after.symbols) ∧
      Derives (.rule .call) call ∧ Derives (.repeated (.rule .operation)) operations := by
  have item : ∀ follow, Implements budget bound (.part .item selector) (.rule .operation) follow :=
    fun follow => implements_part (implements_operation factors follow)
  have several := @implements_many _ _ _ [] selectorStarts _ (item _) rfl rfl rfl
  have start : cursor.symbol ∈ selectorStarts := by
    rw [called]
    decide
  rw [cursor.symbol_eq_next] at called
  rcases reads.of_branch with ⟨-, chosen⟩ | ⟨refused, -⟩
  · cases chosen with
    | part inner =>
      cases inner with
      | assemble parts =>
        cases parts with
        | seq loop ended =>
          cases ended
          cases loop with
          | manyStop refused => exact absurd start refused
          | manyStep _ head _ others =>
            obtain ⟨word, split, derived⟩ := (item []).sound head
            obtain ⟨operations, split', operated⟩ := several.sound others
            rw [split] at called
            exact ⟨word, operations, by rw [split, split'], derives_call derived called, operated⟩
          | manyStall _ head _ =>
            obtain ⟨word, split, derived⟩ := (item []).sound head
            rw [split] at called
            exact ⟨word, [], split, derives_call derived called, .stop⟩
  · exact absurd start refused

theorem sound_unary
    {cursor after : Cursor}
    {tree : Tree}
    (reads : Reads budget unaryExpression cursor tree after) :
    ∃ word, cursor.symbols = word ++ after.symbols ∧ Derives (.rule .unary) word := by
  cases reads with
  | assemble parts =>
    cases parts with
    | seq primary others =>
      cases primary with
      | part primary =>
        cases others with
        | seq selected flagged =>
          obtain ⟨flags, split'', flagged⟩ := flagged.derives
            (implements_seq (implements_branch
              (implements_part (implements_flags factors []).shorter)
              implements_empty (by rfl) (by rfl)) implements_empty)
          rcases sound_primary factors primary with ⟨word, split, derived⟩ | ⟨split, called⟩
          · obtain ⟨operations, split', operated⟩ := (implements_operations factors).sound selected
            refine ⟨word ++ (operations ++ flags), ?_, .rule (.left (.seq derived
              (.seq operated flagged)))⟩
            simp only [split, split', split'', List.append_assoc]
          · rw [← Cursor.symbol_eq_next] at called
            obtain ⟨call, operations, split', called, operated⟩ :=
              sound_operations factors selected called
            refine ⟨[.word .NEW] ++ (call ++ (operations ++ flags)), ?_, .rule (.right
              (.seq (.symbols List.mem_cons_self) (.seq called (.seq operated flagged))))⟩
            simp only [split, split', split'', List.append_assoc, List.cons_append,
              List.nil_append]

theorem sound_factor
    {cursor after : Cursor}
    {tree : Tree}
    (reads : Reads budget factorBody cursor tree after) :
    ∃ word, cursor.symbols = word ++ after.symbols ∧ Derives (.rule .factor) word := by
  rcases reads.of_branch with ⟨-, signed⟩ | ⟨-, unary⟩
  · obtain ⟨word, split, derived⟩ := signed.derives (implements_assemble
      (implements_seq implements_token (implements_seq
        (implements_part (factors.before (by rfl))) implements_empty)))
    exact ⟨word, split, .rule (.left derived)⟩
  · obtain ⟨word, split, derived⟩ := sound_unary factors unary
    exact ⟨word, split, .rule (.right derived)⟩

/-- A factor is read, and of what follows an operand at its end perhaps something. -/
theorem reads_factorBody
    (operands : ReadsFactors budget bound)
    {cursor : Cursor}
    {times : Nat}
    {word trail rest : List Symbol}
    (derived : Derives (.rule .factor) word)
    (h : Trail times trail)
    (short : word.length + trail.length ≤ bound + 1)
    (split : cursor.symbols = word ++ (trail ++ rest))
    (after : next rest ∈ afterFactor) :
    ReadsTo budget factorBody cursor fun symbols =>
      ∃ left, Trail times left ∧ left.length ≤ bound ∧ symbols = left ++ rest := by
  rcases derives_alt_iff.mp (derives_rule_iff.mp derived) with signed | unary
  · obtain ⟨sign, more, rfl, first, others⟩ := derives_seq_iff.mp signed
    obtain ⟨symbol, chosen, rfl⟩ := derives_symbols_iff.mp first
    obtain ⟨operand, none, rfl, factored, ended⟩ := derives_seq_iff.mp others
    obtain rfl := derives_nothing_iff.mp ended
    simp only [List.append_nil, List.length_append, List.length_cons, List.length_nil]
      at short split
    have start : cursor.symbol ∈ signs := by
      rw [cursor.symbol_eq_next, split]
      exact chosen
    have front : ReadsTo budget (oneOf .operator signs "factor") cursor
        (· = operand ++ (trail ++ rest)) := .token split chosen rfl
    refine .first start (.assemble (front.seq ?_))
    intro middle split'
    refine (operands middle factored h (by omega) split' after).part.seq ?_
    intro last ends
    exact .empty ends
  · have other : cursor.symbol ∉ signs := by
      have none : ∀ symbol ∈ Nonterminal.unary.starts, symbol ∉ signs := by decide
      rw [cursor.symbol_eq_next, split]
      exact none _ (unary.next_mem_first rfl)
    exact .second other (reads_unary factors operands unary h short split after)

end Designators

/-- With as many levels as a word is long, factors are read. -/
theorem factors_implemented (budget : Nat) :
    Implements budget budget factor (.rule .factor) afterFactor ∧ ReadsFactors budget budget := by
  induction budget with
  | zero =>
    have none : ∀ {word : List Symbol}, Derives (.rule .factor) word → ¬ word.length ≤ 0 := by
      intro word derived short
      exact derived.ne_nil rfl (List.length_eq_zero_iff.mp (Nat.le_zero.mp short))
    refine ⟨⟨?_, ?_⟩, ?_⟩
    · intro cursor after output reads
      cases reads
    · intro cursor word rest derived short
      exact absurd short (none derived)
    · intro cursor times word trail rest derived _ short
      exact absurd (Nat.le_of_add_right_le short) (none derived)
  | succ budget ih =>
    obtain ⟨factors, operands⟩ := ih
    have deeper : ReadsFactors (budget + 1) (budget + 1) := by
      intro cursor times word trail rest derived h short split after
      have reads := reads_factorBody factors operands derived h short split after
      refine reads.deeper.mono ?_
      rintro symbols ⟨left, others, short, same⟩
      exact ⟨left, others, Nat.le_succ_of_le short, same⟩
    refine ⟨⟨?_, ?_⟩, deeper⟩
    · intro cursor after output reads
      cases reads with
      | deeper inner => exact sound_factor factors inner
    · intro cursor word rest derived short split after
      obtain ⟨tree, last, reads, left, nothing, -, ends⟩ :=
        deeper cursor derived .none (by simpa using short) split after
      cases nothing
      exact ⟨tree, last, reads, ends⟩

theorem implements_expression_of_budget (budget : Nat) :
    Implements budget budget expression (.rule .expression) afterExpression :=
  implements_expression (factors_implemented budget).1

end Oberon.Grammar

namespace Oberon.Rule

/-- Parses a construct with nothing after it. -/
def parseAll (rule : Rule) : Parser Tree := do
  let tree ← rule.parse
  Parser.finish
  return tree

theorem parseAll_eq_ok_iff
    {rule : Rule}
    {cursor : Cursor} :
    (∃ tree after, rule.parseAll cursor = .ok tree after) ↔
      ∃ tree after, rule.parse cursor = .ok tree after ∧ after.rest = [] := by
  simp only [parseAll, Parser.bind_eq_ok_iff, Parser.pure_eq_ok_iff]
  constructor
  · rintro ⟨_, _, tree, middle, parsed, _, _, finished, -, -⟩
    exact ⟨tree, middle, parsed, (Parser.finish_eq_ok_iff.mp finished).1⟩
  · rintro ⟨tree, middle, parsed, finished⟩
    exact ⟨_, _, tree, middle, parsed, (), _, Parser.finish_eq_ok_iff.mpr ⟨finished, rfl⟩,
      rfl, rfl⟩

/-- The parser of expressions accepts exactly the words of the grammar, unless it gives up because
the nesting is too deep. -/
theorem expression_accepts_iff
    {lexemes : List Lexeme}
    {last : Lexeme}
    (inner : ∀ lexeme ∈ lexemes, lexeme.symbol ≠ .endOfFile)
    (ends : last.symbol = .endOfFile)
    (shallow : ¬ Parser.TooDeep (Rule.expression.parseAll (.ofLexemes (lexemes ++ [last])))) :
    (∃ tree after,
      Rule.expression.parseAll (.ofLexemes (lexemes ++ [last])) = .ok tree after) ↔
    Ebnf.Derives (.rule .expression) (lexemes.map (·.symbol)) := by
  rw [Cursor.ofLexemes_append_end inner ends] at shallow ⊢
  rw [parseAll_eq_ok_iff]
  constructor
  · rintro ⟨tree, after, parsed, finished⟩
    have reads := Production.run_eq_ok_iff.mp parsed
    obtain ⟨word, split, derived⟩ := (Grammar.implements_expression_of_budget _).sound reads
    rw [Cursor.symbols, Cursor.symbols, finished, List.map_nil, List.append_nil] at split
    rw [split]
    exact derived
  · intro derived
    -- with levels enough the word is read, and the limit can only stop that by a complaint
    have enough := Nat.le_max_right maxNesting (lexemes.map (·.symbol)).length
    obtain ⟨tree, after, reads, finished⟩ :=
      (Grammar.implements_expression_of_budget
        (max maxNesting (lexemes.map (·.symbol)).length)).complete
        ⟨lexemes, last.token.start, 0⟩ derived enough (List.append_nil _).symm (by decide)
    have filtered := Production.run_filters
      (Nat.le_max_left maxNesting (lexemes.map (·.symbol)).length) Grammar.expression
      ⟨lexemes, last.token.start, 0⟩
    rw [reads.run] at filtered
    rcases filtered with parsed | deep
    · exact ⟨tree, after, parsed, List.map_eq_nil_iff.mp finished⟩
    · exact absurd (Parser.tooDeep_bind deep) shallow

/-- The theorem applies to `x + 1`, as the parser accepts it. -/
theorem expression_accepts_sum :
    Ebnf.Derives (.rule .expression) [.ident, .mark .plus, .integer] := by
  let lexemes : List Lexeme :=
    [⟨⟨.ident, 0, 1⟩, "x"⟩, ⟨⟨.mark .plus, 2, 3⟩, ""⟩, ⟨⟨.integer, 4, 5⟩, "1"⟩]
  have succeeds : (Rule.expression.parseAll.place?
      (.ofLexemes (lexemes ++ [⟨.endAt 5, ""⟩]))).isSome = true := by
    decide +kernel
  obtain ⟨after, place⟩ := Option.isSome_iff_exists.mp succeeds
  obtain ⟨tree, parsed⟩ := Parser.place?_eq_some_iff.mp place
  refine (expression_accepts_iff (by decide) rfl ?_).mp ⟨tree, after, parsed⟩
  rintro ⟨violation, cursor, rule, failed, -⟩
  rw [parsed] at failed
  cases failed

end Oberon.Rule
