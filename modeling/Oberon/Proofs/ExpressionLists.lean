import Oberon.Proofs.ExpressionParser
import Oberon.Proofs.IndexLists

/-!
# Index lists without a `?`

Lists of expressions and index lists are read by two loops.  That of index lists looks for a `?`
after every comma, and leaves the loop in the middle of a turn when there is one.  Since no
expression starts with a `?` (`Production.Reads.symbol_ne_question`), a loop over expressions alone
never goes on past such a comma, so that looking for the `?` changes nothing where there is none
(`Production.Reads.tail_of_stops` and `Production.Reads.stops_of_tail`).

From a place without a `?`, a list of expressions is therefore read exactly if an index list is read
that has become none, and both are the same tree and end at the same place
(`Rule.expressionList_eq_ok_iff`).
-/

namespace Oberon

/-- Without a `?` an index list is put together like a list of expressions. -/
theorem Tree.indexList_eq_unlessSingle
    {items : List Tree}
    (roles : ∀ part ∈ items, part.role = .item ∨ part.role = .separator)
    (span : Span) :
    indexList span items = unlessSingle .expressionList span items := by
  rw [indexList, find?_question_eq_none roles]

namespace Production

open Grammar

variable
  {budget : Nat}
  {cursor after : Cursor}
  {tree : Tree}

/-- No expression starts with a `?`. -/
theorem Reads.symbol_ne_question
    (h : Reads budget expression cursor tree after) :
    cursor.symbol ≠ .mark .question := by
  obtain ⟨word, split, derived⟩ := (implements_expression_of_budget budget).sound h
  have starts : cursor.symbol ∈ Nonterminal.expression.starts := by
    rw [cursor.symbol_eq_next, split]
    exact derived.next_mem_first rfl
  intro question
  rw [question] at starts
  exact absurd starts (by decide)

section Stops

variable
  {separator : Symbol}
  {role exitRole : Role}
  {stops : List Symbol}
  {exit item : Production .parts}
  {output : List Tree}

/-- A loop that looks for stops reads what a loop without stops reads, if no item starts with a
stop. -/
theorem Reads.stops_of_tail
    {noRole : Role}
    {noExit : Production .parts}
    (never : ∀ {cursor trees after}, Reads budget item cursor trees after → cursor.symbol ∉ stops)
    (h : Reads budget (.tail separator role [] noRole noExit item) cursor output after) :
    Reads budget (.tail separator role stops exitRole exit item) cursor output after := by
  induction size : cursor.rest.length using Nat.strongRecOn generalizing cursor output with
  | ind size ih =>
    subst size
    cases h with
    | tailStop refused => exact .tailStop refused
    | tailStep _ head others =>
      have shorter := head.suffix.length_le
      exact .tailStep (never head) head (ih _ (Nat.lt_succ_of_le shorter) others rfl)
    | tailExit chosen _ => cases chosen

/-- A loop that has not come to a stop has read what a loop without stops reads. -/
theorem Reads.tail_of_stops
    {noRole : Role}
    {noExit : Production .parts}
    (free : ∀ part ∈ output, part.role ≠ exitRole)
    (h : Reads budget (.tail separator role stops exitRole exit item) cursor output after) :
    Reads budget (.tail separator role [] noRole noExit item) cursor output after := by
  induction size : cursor.rest.length using Nat.strongRecOn generalizing cursor output with
  | ind size ih =>
    subst size
    cases h with
    | tailStop refused => exact .tailStop refused
    | tailStep _ head others =>
      have shorter := head.suffix.length_le
      refine .tailStep List.not_mem_nil head (ih _ (Nat.lt_succ_of_le shorter) ?_ others rfl)
      intro part member
      exact free part (List.mem_cons_of_mem _ (List.mem_append_right _ member))
    | tailExit => exact absurd rfl (free _ List.mem_cons_self)

end Stops

/-- The items of an index list, with a comma between each two, up to a comma before a `?`. -/
def indexItems : Production .parts :=
  all [
    .part .item expression,
    .tail (.mark .comma) .separator [.mark .question] .firstComma
      (all [mark .question .question "index list", indexListRest])
      (.part .item expression)]

/-- Expressions with commas between them are the items of an index list of which nothing else is
read. -/
theorem reads_items_iff
    {output : List Tree} :
    Reads budget (sepBy (.mark .comma) (.part .item expression)) cursor output after ↔
      Reads budget indexItems cursor output after ∧
        ∀ part ∈ output, part.role = .item ∨ part.role = .separator := by
  constructor
  · intro h
    cases h with
    | seq head others =>
      have never : ∀ {cursor trees after},
          Reads budget (.part .item expression) cursor trees after →
            cursor.symbol ∉ [Symbol.mark .question] := by
        intro cursor trees after item
        cases item with
        | part inner => exact mt List.mem_singleton.mp inner.symbol_ne_question
      refine ⟨.seq head (reads_seq_empty_iff.mpr (others.stops_of_tail never)), ?_⟩
      obtain ⟨items, ending, rfl, roles, ends⟩ := exists_of_reads_tail others
      refine List.forall_mem_append.mpr ⟨?_, List.forall_mem_append.mpr ⟨roles, ?_⟩⟩
      · cases head with
        | part _ => exact List.forall_mem_singleton.mpr (.inl (Tree.role_withRole _ _))
      · rcases ends with rfl | ⟨comma, back, middle, -, rfl, nothing⟩
        · exact List.forall_mem_nil _
        · cases nothing
          exact List.forall_mem_singleton.mpr (.inr rfl)
  · rintro ⟨h, roles⟩
    cases h with
    | seq head others =>
      refine .seq head ((reads_seq_empty_iff.mp others).tail_of_stops ?_)
      intro part member exits
      rcases roles part (List.mem_append_right _ member) with same | same
      · cases same.symm.trans exits
      · cases same.symm.trans exits

/-- Where items of an index list do not make one, nothing but items and commas was read. -/
theorem Reads.roles_of_kind?_ne
    {output : List Tree}
    {span : Span}
    (h : Reads budget indexItems cursor output after)
    (kind : (Tree.indexList span output).kind? ≠ some .indexList) :
    ∀ part ∈ output, part.role = .item ∨ part.role = .separator := by
  cases h with
  | seq head others =>
    cases head with
    | @part _ _ _ _ _ read single =>
      obtain ⟨items, ending, rfl, roles, ends⟩ :=
        exists_of_reads_tail (reads_seq_empty_iff.mp others)
      have roles := List.forall_mem_cons.mpr ⟨.inl (Tree.role_withRole .item read), roles⟩
      rcases ends with rfl | ⟨comma, back, middle, -, rfl, exit⟩
      · rwa [List.append_nil]
      · obtain ⟨question, right, rfl, -, -⟩ := exists_of_reads_question exit
        refine absurd ?_ kind
        rw [← List.append_assoc, List.singleton_append,
          Tree.indexList_eq (List.cons_ne_nil _ _) roles]
        rfl

/-- From a place without a `?`, lists of expressions are the index lists that have become none. -/
theorem reads_expressionList_iff
    (other : cursor.symbol ≠ .mark .question) :
    Reads budget expressionList cursor tree after ↔
      Reads budget indexList cursor tree after ∧ tree.kind? ≠ some .indexList := by
  constructor
  · intro h
    cases h with
    | @assemble _ _ _ _ _ trees inner =>
      obtain ⟨items, roles⟩ := reads_items_iff.mp inner
      have refused : cursor.symbol ∉ [Symbol.mark .question] := mt List.mem_singleton.mp other
      have read : Reads budget indexList cursor _ after := .assemble (.second refused items)
      have same : Tree.assemble .indexList (after.spanFrom cursor.start) trees =
          Tree.assemble (.unlessSingle .expressionList) (after.spanFrom cursor.start) trees :=
        Tree.indexList_eq_unlessSingle roles _
      rw [← same]
      refine ⟨read, ?_⟩
      cases inner with
      | seq head _ =>
        cases head with
        | part single =>
          refine Tree.kind?_indexList_ne ?_ roles _
          rw [Tree.kind?_withRole]
          exact single.kind?_expression.2
  · rintro ⟨h, kind⟩
    cases h with
    | @assemble _ _ _ _ _ trees inner =>
      cases inner with
      | first chosen _ => exact absurd (List.mem_singleton.mp chosen) other
      | second _ items =>
        have roles := items.roles_of_kind?_ne kind
        have same : Tree.assemble .indexList (after.spanFrom cursor.start) trees =
            Tree.assemble (.unlessSingle .expressionList) (after.spanFrom cursor.start) trees :=
          Tree.indexList_eq_unlessSingle roles _
        rw [same]
        exact .assemble (reads_items_iff.mpr ⟨items, roles⟩)

end Production

/-- Without a `?` an index list is just a list of expressions.  From any place where the next symbol
is no `?`, and with any number of levels left, a list of expressions is parsed exactly if an index
list is parsed that is none; both come to the same tree, with the same spans, and to the same
place. -/
theorem Rule.expressionList_eq_ok_iff
    {budget : Nat}
    {cursor after : Cursor}
    {tree : Tree}
    (other : cursor.symbol ≠ .mark .question) :
    Rule.expressionList.parseWithin budget cursor = .ok tree after ↔
      Rule.indexList.parseWithin budget cursor = .ok tree after ∧
        tree.kind? ≠ some .indexList := by
  rw [Rule.parseWithin, Rule.parseWithin, Production.run_eq_ok_iff, Production.run_eq_ok_iff]
  exact Production.reads_expressionList_iff other

/-- The theorem applies to a list with an index list in one of its items, three levels below the
limit. -/
theorem Rule.expressionList_eq_ok_iff_nested :
    (Cursor.ofStream (.ofSource (.ofText "M" "a[b, ?], c"))).symbol ≠ .mark .question ∧
      ∃ tree after,
        Rule.expressionList.parseWithin 3 (.ofStream (.ofSource (.ofText "M" "a[b, ?], c"))) =
          .ok tree after ∧
        Rule.indexList.parseWithin 3 (.ofStream (.ofSource (.ofText "M" "a[b, ?], c"))) =
          .ok tree after ∧
        tree.kind? = some .expressionList := by
  have other : (Cursor.ofStream (.ofSource (.ofText "M" "a[b, ?], c"))).symbol ≠
      .mark .question := by
    decide +kernel
  have kind : (((Rule.expressionList.parseWithin 3).value?
      (.ofStream (.ofSource (.ofText "M" "a[b, ?], c")))).map Tree.kind?) =
        some (some .expressionList) := by
    decide +kernel
  obtain ⟨tree, found, several⟩ := Option.map_eq_some_iff.mp kind
  obtain ⟨after, parsed⟩ := Parser.value?_eq_some_iff.mp found
  exact ⟨other, tree, after, parsed, ((Rule.expressionList_eq_ok_iff other).mp parsed).1, several⟩

end Oberon
