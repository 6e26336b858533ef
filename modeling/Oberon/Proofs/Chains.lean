import Oberon.Proofs.Decoding
import Oberon.Proofs.Height
import Oberon.Proofs.Words

/-!
# Sums without bound

The limit of nesting does not bound the height of a tree: every sum in a row of sums is nested in
the next one, and there can be as many as the source has room for (`Source.height_unbounded`).

What the parser makes of the modules that show it is put together from what its productions take
(`Production.Takes`): a chain of operators is at least as high as it has operators, and no construct
is lower than its parts.
-/

namespace Oberon

namespace Tree

@[simp] theorem heightOf_append
    (front back : List Tree) :
    heightOf (front ++ back) = max (heightOf front) (heightOf back) := by
  induction front with
  | nil => simp [heightOf]
  | cons tree rest ih => rw [List.cons_append, heightOf, ih, heightOf, Nat.max_assoc]

@[simp] theorem height_withRole
    (role : Role)
    (tree : Tree) :
    (tree.withRole role).height = tree.height := by
  cases tree <;> simp [withRole, height]

theorem heightOf_le_height_unlessSingle
    (kind : Kind)
    (span : Span)
    (parts : List Tree) :
    heightOf parts ≤ (unlessSingle kind span parts).height := by
  fun_cases unlessSingle kind span parts with
  | case1 => simp [heightOf, height]
  | case2 => exact Nat.le_succ _

/-- Every operator raises the operand on its left. -/
theorem height_chain
    (kind : Kind)
    (start : Nat)
    (left : Tree)
    (parts : List Tree) :
    left.height + parts.length / 2 ≤ (chain kind start left parts).height := by
  fun_induction chain kind start left parts with
  | case1 => exact Nat.le_refl _
  | case2 left last =>
    simp only [height, heightOf, height_withRole, List.length_singleton]
    omega
  | case3 left operator right rest ih =>
    simp only [height, heightOf, height_withRole] at ih
    simp only [List.length_cons]
    omega

theorem heightOf_le_height_chain
    (kind : Kind)
    (start : Nat)
    (left : Tree)
    (parts : List Tree) :
    heightOf (left :: parts) ≤ (chain kind start left parts).height := by
  fun_induction chain kind start left parts with
  | case1 => simp [heightOf]
  | case2 left last =>
    simp only [height, heightOf, height_withRole]
    omega
  | case3 left operator right rest ih =>
    simp only [height, heightOf, height_withRole] at ih ⊢
    omega

theorem heightOf_le_height_indexList
    (span : Span)
    (parts : List Tree) :
    heightOf parts ≤ (indexList span parts).height := by
  fun_cases indexList span parts with
  | case1 => exact heightOf_le_height_unlessSingle _ _ _
  | case2 => exact Nat.le_succ _
  | case3 question found before several left =>
    have items : heightOf (parts.takeWhile before) ≤ left.height :=
      heightOf_le_height_unlessSingle _ _ _
    have whole : heightOf parts =
        max (heightOf (parts.takeWhile before)) (heightOf (parts.dropWhile before)) := by
      rw [← heightOf_append, List.takeWhile_append_dropWhile]
    simp only [whole, height, heightOf, height_withRole]
    omega

/-- No construct is lower than its parts. -/
theorem heightOf_le_height_assemble
    (assembly : Assembly)
    (span : Span)
    (parts : List Tree) :
    heightOf parts ≤ (assemble assembly span parts).height := by
  cases assembly with
  | node kind => exact Nat.le_succ _
  | unlessSingle kind => exact heightOf_le_height_unlessSingle _ _ _
  | chain kind =>
    cases parts with
    | nil => exact Nat.zero_le _
    | cons first rest =>
      have higher := heightOf_le_height_chain kind span.start (first.withRole .root) rest
      rwa [heightOf, height_withRole] at higher
  | byRole role present absent => exact Nat.le_succ _
  | indexList => exact heightOf_le_height_indexList _ _
  | allocation =>
    simp only [assemble]
    fun_cases allocation span parts with
    | case1 => exact Nat.zero_le _
    | case2 => exact Nat.le_succ _

end Tree

namespace Production

/-- From every place before some symbols a production reads up to others, and yields something that
has some height at least. -/
def Takes
    (budget : Nat)
    {yield : Yield}
    (production : Production yield)
    (before after : List Symbol)
    (height : Nat) :
    Prop :=
  ∀ cursor : Cursor, cursor.symbols = before →
    ∃ output last, Reads budget production cursor output last ∧ last.symbols = after ∧
      height ≤ Tree.heightOf (Yield.trees output)

variable
  {budget height : Nat}
  {symbol next : Symbol}
  {before middle after : List Symbol}

theorem takes_empty : Takes budget .empty before before 0 :=
  fun cursor stands => ⟨[], cursor, .empty, stands, Nat.zero_le _⟩

theorem takes_token
    {role : Role}
    {symbols : List Symbol}
    {reason : Reason}
    (fits : symbol ∈ symbols) :
    Takes budget (.token role symbols reason) (symbol :: after) after 0 := by
  rintro ⟨lexemes, stop, reached⟩ stands
  obtain ⟨lexeme, others, rfl, rfl, rfl⟩ := List.map_eq_cons_iff.mp stands
  exact ⟨_, _, .token fits, rfl, Nat.zero_le _⟩

namespace Takes

theorem seq
    {first second : Production .parts}
    (left : Takes budget first before middle 0)
    (right : Takes budget second middle after height) :
    Takes budget (.seq first second) before after height := by
  intro cursor stands
  obtain ⟨front, place, head, stands, -⟩ := left cursor stands
  obtain ⟨back, last, tail, stands, high⟩ := right place stands
  refine ⟨_, last, head.seq tail, stands, ?_⟩
  rw [Yield.trees_parts, Tree.heightOf_append]
  exact Nat.le_trans high (Nat.le_max_right _ _)

theorem seq_left
    {first second : Production .parts}
    (left : Takes budget first before middle height)
    (right : Takes budget second middle after 0) :
    Takes budget (.seq first second) before after height := by
  intro cursor stands
  obtain ⟨front, place, head, stands, high⟩ := left cursor stands
  obtain ⟨back, last, tail, stands, -⟩ := right place stands
  refine ⟨_, last, head.seq tail, stands, ?_⟩
  rw [Yield.trees_parts, Tree.heightOf_append]
  exact Nat.le_trans high (Nat.le_max_left _ _)

theorem first
    {yield : Yield}
    {starts : List Symbol}
    {first second : Production yield}
    (chosen : symbol ∈ starts)
    (inner : Takes budget first (symbol :: before) after height) :
    Takes budget (.branch starts first second) (symbol :: before) after height := by
  intro cursor stands
  obtain ⟨output, last, read, rest⟩ := inner cursor stands
  rw [← Cursor.symbol_of_symbols stands] at chosen
  exact ⟨output, last, .first chosen read, rest⟩

theorem second
    {yield : Yield}
    {starts : List Symbol}
    {first second : Production yield}
    (refused : symbol ∉ starts)
    (inner : Takes budget second (symbol :: before) after height) :
    Takes budget (.branch starts first second) (symbol :: before) after height := by
  intro cursor stands
  obtain ⟨output, last, read, rest⟩ := inner cursor stands
  rw [← Cursor.symbol_of_symbols stands] at refused
  exact ⟨output, last, .second refused read, rest⟩

theorem token_seq
    {role : Role}
    {symbols : List Symbol}
    {reason : Reason}
    {others : Production .parts}
    (fits : symbol ∈ symbols)
    (right : Takes budget others before after height) :
    Takes budget (.seq (.token role symbols reason) others) (symbol :: before) after height :=
  (takes_token fits).seq right

theorem skip_seq
    {starts : List Symbol}
    {parts others : Production .parts}
    (refused : symbol ∉ starts)
    (right : Takes budget others (symbol :: before) after height) :
    Takes budget (.seq (optional starts parts) others) (symbol :: before) after height :=
  seq (.second refused takes_empty) right

theorem many_stop
    {starts : List Symbol}
    {item : Production .parts}
    (refused : symbol ∉ starts) :
    Takes budget (.many starts item) (symbol :: before) (symbol :: before) 0 := by
  intro cursor stands
  rw [← Cursor.symbol_of_symbols stands] at refused
  exact ⟨[], cursor, .manyStop refused, stands, Nat.zero_le _⟩

/-- A single item. -/
theorem many_once
    {starts : List Symbol}
    {item : Production .parts}
    (chosen : symbol ∈ starts)
    (inner : Takes budget item (symbol :: before) (next :: after) height)
    (shorter : after.length < before.length)
    (refused : next ∉ starts) :
    Takes budget (.many starts item) (symbol :: before) (next :: after) height := by
  intro cursor stands
  obtain ⟨output, last, read, reached, high⟩ := inner cursor stands
  rw [← Cursor.symbol_of_symbols stands] at chosen
  rw [← Cursor.symbol_of_symbols reached] at refused
  have progress := Cursor.length_lt_of_symbols reached stands (Nat.succ_lt_succ shorter)
  have items := read.manyStep chosen progress (.manyStop refused)
  rw [List.append_nil] at items
  exact ⟨output, last, items, reached, high⟩

theorem part
    {role : Role}
    {construct : Production .construct}
    (inner : Takes budget construct before after height) :
    Takes budget (.part role construct) before after height := by
  intro cursor stands
  obtain ⟨tree, last, read, reached, high⟩ := inner cursor stands
  refine ⟨_, last, .part read, reached, ?_⟩
  simpa [Tree.heightOf] using high

theorem assemble
    {assembly : Assembly}
    {parts : Production .parts}
    (inner : Takes budget parts before after height) :
    Takes budget (.assemble assembly parts) before after height := by
  intro cursor stands
  obtain ⟨trees, last, read, reached, high⟩ := inner cursor stands
  refine ⟨_, last, .assemble read, reached, ?_⟩
  have higher := Tree.heightOf_le_height_assemble assembly (last.spanFrom cursor.start) trees
  simpa [Tree.heightOf] using Nat.le_trans high higher

theorem deeper
    {level : Level}
    (inner : Takes budget level.production before after height) :
    Takes (budget + 1) (.deeper level) before after height := by
  intro cursor stands
  obtain ⟨tree, last, read, rest⟩ := inner cursor stands
  exact ⟨tree, last, .deeper read, rest⟩

end Takes

end Production

section Sums

open Production Grammar

variable {α : Type}

/-- Some items again and again, and then others. -/
def repeated (count : Nat) (items after : List α) : List α :=
  (List.replicate count items).flatten ++ after

theorem repeated_succ
    (count : Nat)
    (items after : List α) :
    repeated (count + 1) items after = items ++ repeated count items after := by
  rw [repeated, List.replicate_succ, List.flatten_cons, List.append_assoc]
  rfl

theorem map_repeated
    {β : Type}
    (f : α → β)
    (count : Nat)
    (items after : List α) :
    (repeated count items after).map f = repeated count (items.map f) (after.map f) := by
  simp [repeated]

variable
  {budget : Nat}
  {next : Symbol}
  {after : List Symbol}

theorem exists_repeated_eq_cons
    (count : Nat) :
    ∃ next others, repeated count [Symbol.mark .plus, .integer] (.mark .semicolon :: after) =
      next :: others ∧ next ∈ [Symbol.mark .plus, .mark .semicolon] := by
  cases count with
  | zero => exact ⟨_, _, rfl, by decide⟩
  | succ count => exact ⟨_, _, rfl, by decide⟩

/-- A number is a term, before a plus sign or a semicolon. -/
theorem takes_term
    (follows : next ∈ [Symbol.mark .plus, .mark .semicolon]) :
    Takes (budget + 1) term (.integer :: next :: after) (next :: after) 0 := by
  have apart : ∀ symbol ∈ [Symbol.mark .plus, .mark .semicolon], symbol ∉ Symbol.mulOperators ∧
      symbol ∉ selectorStarts ∧ symbol ∉ [Symbol.mark .leftBrace] := by
    decide
  obtain ⟨noOperator, noSelector, noFlags⟩ := apart _ follows
  have literal : Takes budget primaryExpression (.integer :: next :: after) (next :: after) 0 :=
    .first (by decide) (.assemble (.token_seq (by decide) takes_empty))
  have operand : Takes (budget + 1) factor (.integer :: next :: after) (next :: after) 0 :=
    .deeper (.second (by decide) (.assemble (.seq (.part literal)
      (.skip_seq noSelector (.skip_seq noFlags takes_empty)))))
  exact .assemble (.seq (.part operand) (.seq (.many_stop noOperator) takes_empty))

/-- The loop over plus signs and numbers yields as many parts as there are tokens. -/
theorem exists_reads_addends
    (count : Nat)
    (cursor : Cursor)
    (stands : cursor.symbols =
      repeated count [.mark .plus, .integer] (.mark .semicolon :: after)) :
    ∃ output last,
      Reads (budget + 1)
        (.many Symbol.addOperators (all [
          oneOf .operator Symbol.addOperators "simple expression",
          .part .item term]))
        cursor output last ∧ last.symbols = .mark .semicolon :: after ∧
      output.length = 2 * count := by
  induction count generalizing cursor with
  | zero =>
    have refused : cursor.symbol ∉ Symbol.addOperators := by
      rw [Cursor.symbol_of_symbols stands]
      decide
    exact ⟨[], cursor, .manyStop refused, stands, rfl⟩
  | succ count ih =>
    obtain ⟨next, others, rest, follows⟩ := exists_repeated_eq_cons count
    rw [rest] at ih
    rw [repeated_succ, rest] at stands
    have chosen : cursor.symbol ∈ Symbol.addOperators := by
      rw [Cursor.symbol_of_symbols stands]
      decide
    obtain ⟨lexemes, stop, reached⟩ := cursor
    obtain ⟨lexeme, lexemes, rfl, sign, operands⟩ := List.map_eq_cons_iff.mp stands
    obtain ⟨operand, place, read, stood, -⟩ :=
      takes_term follows ⟨lexemes, stop, lexeme.token.stop⟩ operands
    obtain ⟨output, last, more, ended, counted⟩ := ih place stood
    have progress := Cursor.length_lt_of_symbols stood stands (by simp)
    refine ⟨_, last, .manyStep chosen (.seq (.token chosen) (.seq (.part read) .empty)) progress
      more, ended, ?_⟩
    rw [List.length_append, counted, Nat.mul_succ, Nat.add_comm]
    rfl

/-- A sum is at least as high as it has operators. -/
theorem takes_simpleExpression
    (count : Nat) :
    Takes (budget + 1) simpleExpression
      (.integer :: repeated count [.mark .plus, .integer] (.mark .semicolon :: after))
      (.mark .semicolon :: after) count := by
  intro cursor stands
  obtain ⟨next, others, rest, follows⟩ := exists_repeated_eq_cons count
  rw [rest] at stands
  obtain ⟨tree, place, operand, stood, -⟩ := takes_term follows cursor stands
  obtain ⟨output, last, more, ended, counted⟩ :=
    exists_reads_addends count place (stood.trans rest.symm)
  refine ⟨_, last, .assemble (.seq (.part operand) (.seq more .empty)), ended, ?_⟩
  have raised := Tree.height_chain .sum cursor.start ((tree.withRole .item).withRole .root)
    (output ++ [])
  rw [List.append_nil, counted, Nat.mul_div_cancel_left count Nat.two_pos] at raised
  have high := Nat.le_trans (Nat.le_add_left count _) raised
  rw [← List.append_nil output] at high
  exact Nat.le_trans high (Nat.le_max_left _ 0)

/-- The symbols of a module with a sum as the value of a constant. -/
def sumSymbols (count : Nat) : List Symbol :=
  [.word .MODULE, .ident, .mark .semicolon, .word .CONST, .ident, .mark .equal, .integer] ++
    repeated count [.mark .plus, .integer]
      [.mark .semicolon, .word .END, .ident, .mark .period]

/-- A sum is an expression, before a semicolon. -/
theorem takes_expression
    (count : Nat) :
    Takes (budget + 1) expression
      (.integer :: repeated count [.mark .plus, .integer] (.mark .semicolon :: after))
      (.mark .semicolon :: after) count := by
  have range : Takes (budget + 1) rangeExpression
      (.integer :: repeated count [.mark .plus, .integer] (.mark .semicolon :: after))
      (.mark .semicolon :: after) count :=
    .assemble (.second (by decide) (.second (by decide)
      (.seq_left (.part (takes_simpleExpression count)) (.skip_seq (by decide) takes_empty))))
  exact .assemble (.seq_left (.part range) (.skip_seq (by decide) takes_empty))

theorem takes_identifierDefinition :
    Takes budget identifierDefinition (.ident :: .mark .equal :: after) (.mark .equal :: after) 0 :=
  .assemble (.token_seq (by decide) (.skip_seq (by decide) takes_empty))

/-- A constant in a section of its own, before an `END`. -/
theorem takes_constantSection
    (count : Nat) :
    Takes (budget + 1) constantSection
      (.word .CONST :: .ident :: .mark .equal :: .integer ::
        repeated count [.mark .plus, .integer] (.mark .semicolon :: .word .END :: after))
      (.word .END :: after) count := by
  have constant : Takes (budget + 1) constantDeclaration
      (.ident :: .mark .equal :: .integer ::
        repeated count [.mark .plus, .integer] (.mark .semicolon :: .word .END :: after))
      (.mark .semicolon :: .word .END :: after) count :=
    .assemble (.seq (.part takes_identifierDefinition)
      (.token_seq (by decide) (.seq_left (.part (takes_expression count)) takes_empty)))
  refine .assemble (.token_seq (by decide) (.seq_left (.many_once (by decide) ?_ ?_ (by decide))
    takes_empty))
  · exact .seq_left (.part constant) (.token_seq (by decide) takes_empty)
  · simp only [repeated, List.length_cons, List.length_append]
    omega

/-- The module is read, and is at least as high as the sum has operators. -/
theorem takes_moduleUnit
    (count : Nat) :
    Takes maxNesting moduleUnit (sumSymbols count) [] count := by
  have declared : Takes (maxNesting - 1) declarationsBody
      (.word .CONST :: .ident :: .mark .equal :: .integer ::
        repeated count [.mark .plus, .integer]
          [.mark .semicolon, .word .END, .ident, .mark .period])
      [.word .END, .ident, .mark .period] count := by
    refine .assemble (.seq_left (.many_once (by decide)
      (.part (.first (by decide) (takes_constantSection count))) ?_ (by decide)) takes_empty)
    simp only [repeated, List.length_cons, List.length_append, List.length_nil]
    omega
  -- the heading up to the semicolon, without a context and without parameters
  refine .assemble (.token_seq (by decide) (.token_seq (by decide) ?_))
  refine .skip_seq (by decide) (.skip_seq (by decide) (.token_seq (by decide) ?_))
  -- no imports, the declarations, and no body before the end
  refine .seq (.many_stop (by decide)) (.seq_left (.part (.deeper declared)) ?_)
  exact .skip_seq (by decide) (.token_seq (by decide) (.token_seq (by decide)
    (.token_seq (by decide) takes_empty)))

/-- The words of a module with a sum as the value of a constant. -/
def sumWords (count : Nat) : List (List Char) :=
  ["MODULE".toList, "M".toList, ";".toList, "CONST".toList, "a".toList, "=".toList, "1".toList] ++
    repeated count ["+".toList, "1".toList] [";".toList, "END".toList, "M".toList, ".".toList]

theorem oneToken?_sumWords
    (count : Nat) :
    (sumWords count).map Scan.oneToken? = (sumSymbols count).map some := by
  rw [sumWords, sumSymbols, List.map_append, List.map_append, map_repeated, map_repeated]
  exact congr (congrArg HAppend.hAppend (by decide +kernel))
    (congr (congrArg (repeated count) (by decide +kernel)) (by decide +kernel))

end Sums

/-- A module with nothing after it is the result of parsing. -/
theorem Parsed.result_eq_ok
    {stream : TokenStream}
    {tree : Tree}
    {after : Cursor}
    (parsed : Rule.moduleUnit.parse (.ofStream stream) = .ok tree after)
    (ends : after.rest = []) :
    (ofStream stream).result = .ok tree := by
  have finished := Parser.finish_eq_ok_iff.mpr ⟨ends, rfl⟩
  have whole : parseModule (.ofStream stream) = .ok tree { after with reached := after.stop } := by
    rw [parseModule]
    simp only [Parser.bind_eq_ok_iff, Parser.pure_eq_ok_iff]
    exact ⟨tree, after, parsed, (), _, finished, rfl, rfl⟩
  rw [ofStream, whole]

/-- The source of a module with a sum as the value of a constant. -/
def Source.sum (count : Nat) : Source := ⟨"M", Text.Utf8.encode (spaced (sumWords count))⟩

theorem Source.exists_parse_sum
    (count : Nat) :
    ∃ tree, (Parsed.ofSource (.sum count)).result = .ok tree ∧ count ≤ tree.height := by
  have text : (sum count).text = spaced (sumWords count) :=
    Text.Utf8.decode_encode _
  have stands : (Cursor.ofStream (.ofSource (.sum count))).symbols = sumSymbols count := by
    rw [TokenStream.ofSource, text]
    exact Cursor.symbols_ofText _ (oneToken?_sumWords count)
  obtain ⟨tree, last, read, ended, high⟩ := takes_moduleUnit count _ stands
  have parsed : Rule.moduleUnit.parse (.ofStream (.ofSource (.sum count))) = .ok tree last :=
    Production.run_eq_ok_iff.mpr read
  exact ⟨tree, Parsed.result_eq_ok parsed (List.map_eq_nil_iff.mp ended), by
    simpa [Tree.heightOf] using high⟩

/-- No bound on the height of trees holds for all sources. -/
theorem Source.height_unbounded :
    ¬ ∃ bound, ∀ (source : Source) (tree : Tree),
      (Parsed.ofSource source).result = .ok tree → tree.height ≤ bound := by
  rintro ⟨bound, bounded⟩
  obtain ⟨tree, parsed, high⟩ := exists_parse_sum (bound + 1)
  have low := bounded _ tree parsed
  omega

end Oberon
