import Oberon.Proofs.Origins
import Oberon.Proofs.RecordEnd
import Oberon.Proofs.Stratification

/-!
# Index lists

An index list has a `?` with expressions before and after it.  Its parts lie in the order of the
source: the expressions before the `?`, a comma, the `?`, and perhaps another comma and more
expressions.  A single expression before the `?` has the span of its tokens, which ends before the
comma.  The span of several is taken after the `?` was consumed, and reaches to the end of the `?`
(`Source.indexLists_exact_iff`).

Only one production reads index lists, so all of them are known from one derivation
(`Production.Reads.stems`).
-/

namespace Oberon

/-- Tokens come in the order of the source, and a `?` is not empty. -/
structure Token.Sorted (tokens : List Token) : Prop where
  between : tokens.Pairwise fun earlier later => earlier.stop ≤ later.start
  each : ∀ token ∈ tokens, token.start ≤ token.stop
  question : ∀ token ∈ tokens, token.symbol = .mark .question → token.start < token.stop

namespace Tree

/-- A construct with at least one token. -/
def Filled (tree : Tree) : Prop := tree.kind? ≠ none ∧ tree.tokens ≠ []

/-- A part that reaches from the start of its first token to the end of its last. -/
def Tight (tree : Tree) : Prop :=
  ∃ first last, tree.tokens.head? = some first ∧ tree.tokens.getLast? = some last ∧
    tree.span? = some ⟨first.start, last.stop⟩

end Tree

/-- The parts of an index list with expressions before its `?`. -/
structure Indexes where
  left : Tree
  comma : Lexeme
  question : Lexeme
  right : Option (Lexeme × Tree)
  left_role : left.role = .lhs
  comma_symbol : comma.symbol = .mark .comma
  question_symbol : question.symbol = .mark .question
  right_role : ∀ comma list, right = some (comma, list) →
    comma.symbol = .mark .comma ∧ list.role = .rhs

namespace Indexes

/-- What follows the `?`. -/
def rest : Option (Lexeme × Tree) → List Tree
  | none => []
  | some (comma, list) => [.leaf .secondComma comma, list]

/-- The parts in their order. -/
def parts (indexes : Indexes) : List Tree :=
  indexes.left :: .leaf .firstComma indexes.comma :: .leaf .question indexes.question ::
    rest indexes.right

/-- The marks, and the expressions after the `?`, lie in the order of the source. -/
structure InOrder (indexes : Indexes) : Prop where
  question : indexes.comma.token.stop ≤ indexes.question.token.start
  right : ∀ comma list, indexes.right = some (comma, list) →
    indexes.question.token.stop ≤ comma.token.start ∧ comma.token.start ≤ comma.token.stop ∧
      ∃ span, list.span? = some span ∧ comma.token.stop ≤ span.start

/-- The expressions before the `?` have the span of their tokens, which ends before the comma. -/
def LeftExact (indexes : Indexes) : Prop :=
  indexes.left.Tight ∧
    ∃ span, indexes.left.span? = some span ∧ span.stop ≤ indexes.comma.token.start

/-- The expressions before the `?` have a span that goes on beyond their last token and the comma,
to the end of the `?`. -/
def LeftBeyond (indexes : Indexes) : Prop :=
  ∃ first last, indexes.left.tokens.head? = some first ∧
    indexes.left.tokens.getLast? = some last ∧
    indexes.left.span? = some ⟨first.start, indexes.question.token.stop⟩ ∧
    last.stop ≤ indexes.comma.token.start ∧ indexes.comma.token.start ≤ indexes.comma.token.stop ∧
    indexes.comma.token.stop < indexes.question.token.stop

end Indexes

namespace Tree

theorem Filled.withRole
    {tree : Tree}
    (h : tree.Filled)
    (role : Role) :
    (tree.withRole role).Filled := by
  rw [Filled, kind?_withRole, tokens_withRole]
  exact h

theorem Spanned.tight
    {stream : TokenStream}
    {index : Nat}
    {tree : Tree}
    (h : tree.Spanned stream index)
    (filled : tree.Filled) :
    tree.Tight := by
  obtain ⟨construct, tokens⟩ := filled
  cases tree with
  | leaf _ _ => exact absurd rfl construct
  | missing _ => exact absurd rfl construct
  | node role kind span children =>
    have head := List.head?_eq_some_head tokens
    have last := List.getLast?_eq_some_getLast tokens
    refine ⟨_, _, head, last, ?_⟩
    rw [h.exact, Span.ofTokens, head, last]
    rfl

theorem unlessSingle_cons_cons
    (span : Span)
    (first second : Tree)
    (others : List Tree) :
    unlessSingle .expressionList span (first :: second :: others) =
      node .root .expressionList span (first :: second :: others) := by
  cases first <;> rfl

theorem find?_question_eq_none
    {items : List Tree}
    (roles : ∀ part ∈ items, part.role = .item ∨ part.role = .separator) :
    items.find? (·.role == .question) = none := by
  rw [List.find?_eq_none]
  intro part member
  rcases roles part member with same | same <;> simp [same]

/-- A token ends its span, unless that begins behind it. -/
theorem spanTo_leaf
    {start : Nat}
    {lexeme : Lexeme}
    (ahead : start ≤ lexeme.token.stop)
    (role : Role) :
    spanTo start (.leaf role lexeme) = ⟨start, lexeme.token.stop⟩ := by
  rw [spanTo, tokens_leaf]
  exact congrArg (Span.mk start) (Nat.max_eq_left ahead)

/-- With a `?` after several parts, these become the first part of an index list. -/
theorem indexList_eq
    {items : List Tree}
    {question : Lexeme}
    (filled : items ≠ [])
    (roles : ∀ part ∈ items, part.role = .item ∨ part.role = .separator)
    (span : Span)
    (comma : Lexeme)
    (others : List Tree) :
    indexList span (items ++ .leaf .firstComma comma :: .leaf .question question :: others) =
      node .root .indexList span
        ((unlessSingle .expressionList (spanTo span.start (.leaf .question question))
            items).withRole .lhs ::
          .leaf .firstComma comma :: .leaf .question question :: others) := by
  let before : Tree → Bool := fun part => part.role == .item || part.role == .separator
  let rest : List Tree := .leaf .firstComma comma :: .leaf .question question :: others
  have fits : ∀ part ∈ items, before part = true := by
    simpa [before] using roles
  have absent := find?_question_eq_none roles
  have found : (items ++ rest).find? (·.role == .question) = some (.leaf .question question) := by
    rw [List.find?_append, absent]
    rfl
  have front : (items ++ rest).takeWhile before = items := by
    rw [List.takeWhile_append_of_pos fits]
    exact List.append_nil items
  have back : (items ++ rest).dropWhile before = rest := List.dropWhile_append_of_pos fits
  obtain ⟨first, items, rfl⟩ := List.exists_cons_of_ne_nil filled
  unfold indexList
  simp only [found, before, rest] at front back ⊢
  simp only [front, back]

/-- Without a `?` there is no index list, unless the first part is one already. -/
theorem kind?_indexList_ne
    {first : Tree}
    {items : List Tree}
    (other : first.kind? ≠ some .indexList)
    (roles : ∀ part ∈ first :: items, part.role = .item ∨ part.role = .separator)
    (span : Span) :
    (indexList span (first :: items)).kind? ≠ some .indexList := by
  rw [indexList, find?_question_eq_none roles]
  change (unlessSingle .expressionList span (first :: items)).kind? ≠ _
  unfold unlessSingle
  split
  · rename_i single
    cases single
    exact other
  · nofun

/-- An index list that begins with its `?` has nothing before it. -/
theorem has_lhs_indexList_question
    {right : Option (Lexeme × Tree)}
    (roles : ∀ comma list, right = some (comma, list) → list.role = .rhs)
    (span : Span)
    (question : Lexeme) :
    (indexList span (.leaf .question question :: Indexes.rest right)).has .lhs = false := by
  have whole : indexList span (.leaf .question question :: Indexes.rest right) =
      node .root .indexList span (.leaf .question question :: Indexes.rest right) := rfl
  rw [whole]
  cases right with
  | none => rfl
  | some pair =>
    have role : (pair.2.role == .lhs) = false := by
      rw [roles pair.1 pair.2 rfl]
      rfl
    simp only [has, children, Indexes.rest, List.any_cons, List.any_nil, role]
    rfl

end Tree

namespace Production

open Grammar

variable
  {budget : Nat}
  {yield : Yield}
  {production : Production yield}
  {cursor after : Cursor}
  {output : yield.Output}

/-- What is read comes in the order of the source. -/
theorem Reads.sorted
    {name : String}
    {text : List Char}
    {index : Nat}
    (short : text.length < wordCount)
    (h : Reads budget production cursor output after)
    (place : cursor.At (.ofText name text) index) :
    Token.Sorted (Tree.tokensOf (Yield.trees output)) := by
  obtain ⟨front, passed, tokens⟩ := h.passes
  have covers : ∀ token ∈ Tree.tokensOf (Yield.trees output),
      ∃ lexeme : Lexeme, lexeme.token = token ∧ lexeme.Covers text := by
    intro token member
    rw [tokens] at member
    obtain ⟨lexeme, among, same⟩ := List.mem_map.mp member
    have upcoming : lexeme ∈ cursor.upcoming := by
      rw [passed.upcoming]
      exact List.mem_append_left _ among
    rw [place.upcoming] at upcoming
    have lexemes := TokenStream.lexemes_ofText name short
    exact ⟨lexeme, same, lexemes.covers lexeme (List.mem_of_mem_drop upcoming)⟩
  refine ⟨?_, ?_, ?_⟩
  · have between := (place.ordered short).between
    rw [passed.upcoming] at between
    rw [tokens]
    exact List.pairwise_map.mpr (List.pairwise_append.mp between).1
  · intro token member
    obtain ⟨lexeme, rfl, covers⟩ := covers token member
    exact covers.ordered
  · intro token member mark
    obtain ⟨lexeme, rfl, covers⟩ := covers token member
    have symbol : lexeme.symbol = .mark .question := mark
    have spelling : lexeme.spelling = "?" := by
      rw [Lexeme.spelling, symbol]
      rfl
    have spelled := congrArg List.length (covers.spelled (symbol ▸ Symbol.noConfusion))
    have one : "?".toList.length = 1 := rfl
    rw [spelling, one, List.length_drop, List.length_take] at spelled
    omega

/-- The first token that is read is the one at which the cursor stood. -/
theorem Reads.start_eq
    {token : Token}
    (h : Reads budget production cursor output after)
    (first : (Tree.tokensOf (Yield.trees output)).head? = some token) :
    token.start = cursor.start := by
  obtain ⟨front, passed, tokens⟩ := h.passes
  rw [tokens] at first
  cases front with
  | nil => cases first
  | cons lexeme front =>
    cases first
    simp [Cursor.start, Cursor.token, Cursor.next, passed.rest]

/-- A construct has one of the kinds that were computed. -/
theorem Reads.exists_kind?
    {construct : Production .construct}
    {tree : Tree}
    (h : Reads budget construct cursor tree after)
    (layered : construct.layered = true) :
    ∃ kind, tree.kind? = some kind ∧ (.root, .construct kind) ∈ construct.looks := by
  obtain ⟨look, -⟩ := h.stratified layered tree List.mem_cons_self
  obtain ⟨kind, same⟩ := exists_of_mem_looks _ _ look
  refine ⟨kind, ?_, same ▸ look⟩
  rw [← Tree.kind?_look, same]
  rfl

theorem Reads.filled
    {construct : Production .construct}
    {tree : Tree}
    (h : Reads budget construct cursor tree after)
    (layered : construct.layered = true)
    (productive : construct.productive = true) :
    tree.Filled := by
  obtain ⟨kind, found, -⟩ := h.exists_kind? layered
  refine ⟨by simp [found], ?_⟩
  simpa using h.tokens_ne_nil productive

section

variable {output : List Tree}

/-- A list of separators and items either ends after an item or goes on with the exit. -/
theorem exists_of_reads_tail
    {separator : Symbol}
    {role itemRole exitRole : Role}
    {stops : List Symbol}
    {exit : Production .parts}
    {construct : Production .construct}
    (h : Reads budget (.tail separator role stops exitRole exit (.part itemRole construct)) cursor
      output after) :
    ∃ items ending, output = items ++ ending ∧
      (∀ part ∈ items, part.role = itemRole ∨ part.role = role) ∧
      (ending = [] ∨ ∃ lexeme back middle, lexeme.symbol = separator ∧
        ending = .leaf exitRole lexeme :: back ∧ Reads budget exit middle back after) := by
  induction size : cursor.rest.length using Nat.strongRecOn generalizing cursor output with
  | ind size ih =>
    subst size
    cases h with
    | tailStop => exact ⟨[], [], rfl, nofun, .inl rfl⟩
    | tailStep _ head others =>
      have shorter := head.suffix.length_le
      obtain ⟨items, ending, rfl, roles, ends⟩ := ih _ (Nat.lt_succ_of_le shorter) others rfl
      cases head with
      | part _ =>
        refine ⟨_ :: _ :: items, ending, rfl, ?_, ends⟩
        refine List.forall_mem_cons.mpr ⟨.inr rfl, List.forall_mem_cons.mpr ⟨.inl ?_, roles⟩⟩
        exact Tree.role_withRole _ _
    | tailExit _ last => exact ⟨[], _, rfl, nofun, .inr ⟨_, _, _, rfl, rfl, last⟩⟩

/-- A `?` is alone, or a comma and expressions come after it. -/
theorem exists_of_reads_question
    (h : Reads budget (all [mark .question .question "index list", indexListRest]) cursor output
      after) :
    ∃ question right, output = .leaf .question question :: Indexes.rest right ∧
      question.symbol = .mark .question ∧ ∀ comma list, right = some (comma, list) →
        comma.symbol = .mark .comma ∧ list.role = .rhs ∧ list.Filled := by
  cases h with
  | seq left others =>
    cases left with
    | token fits =>
      have others := reads_seq_empty_iff.mp others
      cases others with
      | first _ list =>
        cases list with
        | seq left others =>
          cases left with
          | token comma =>
            have others := reads_seq_empty_iff.mp others
            cases others with
            | part inner =>
              refine ⟨_, some (_, _), rfl, List.mem_singleton.mp fits, ?_⟩
              rintro _ _ ⟨⟩
              have filled := inner.filled (Rule.layered_production .expressionList) (by decide)
              exact ⟨List.mem_singleton.mp comma, Tree.role_withRole .., filled.withRole _⟩
      | second _ nothing =>
        cases nothing
        exact ⟨_, none, rfl, List.mem_singleton.mp fits, nofun⟩

end

end Production

namespace Indexes

variable {indexes : Indexes}

/-- A span that goes on beyond the comma is not exact. -/
theorem LeftBeyond.not_exact
    (h : indexes.LeftBeyond) :
    ¬ indexes.LeftExact := by
  obtain ⟨first, last, -, -, beyond, -, comma, question⟩ := h
  rintro ⟨-, span, found, before⟩
  rw [beyond, Option.some.injEq] at found
  subst found
  simp only at before
  omega

section Sorted

variable (sorted : Token.Sorted (Tree.tokensOf indexes.parts))

include sorted

theorem stop_le_comma
    {token : Token}
    (member : token ∈ indexes.left.tokens) :
    token.stop ≤ indexes.comma.token.start := by
  have between := sorted.between
  rw [parts, Tree.tokensOf_cons, List.pairwise_append] at between
  refine between.2.2 token member _ ?_
  simp

theorem comma_le_question : indexes.comma.token.stop ≤ indexes.question.token.start := by
  have between := sorted.between
  rw [parts, Tree.tokensOf_cons, List.pairwise_append] at between
  simp only [Tree.tokensOf_cons, Tree.tokens_leaf, List.singleton_append] at between
  exact (List.pairwise_cons.mp between.2.1).1 _ List.mem_cons_self

theorem inOrder_of_sorted
    (tight : ∀ comma list, indexes.right = some (comma, list) → list.Tight) :
    indexes.InOrder := by
  refine ⟨comma_le_question sorted, ?_⟩
  intro comma list found
  obtain ⟨first, last, head, -, spanned⟩ := tight comma list found
  have between := sorted.between
  rw [parts, Tree.tokensOf_cons, List.pairwise_append] at between
  simp only [Tree.tokensOf_cons, Tree.tokens_leaf, List.singleton_append, found, rest,
    Tree.tokensOf_nil, List.append_nil, List.pairwise_cons] at between
  obtain ⟨-, ⟨-, question, second, -⟩, -⟩ := between
  refine ⟨question _ List.mem_cons_self, sorted.each _ ?_, _, spanned,
    second _ (List.mem_of_head? head)⟩
  simp [parts, found, rest]

theorem leftExact_of_tight
    (tight : indexes.left.Tight) :
    indexes.LeftExact := by
  refine ⟨tight, ?_⟩
  obtain ⟨first, last, -, final, spanned⟩ := tight
  exact ⟨_, spanned, stop_le_comma sorted (List.mem_of_getLast? final)⟩

theorem leftBeyond_of_span?
    {start : Nat}
    (filled : indexes.left.tokens ≠ [])
    (starts : ∀ token, indexes.left.tokens.head? = some token → token.start = start)
    (span : indexes.left.span? = some ⟨start, indexes.question.token.stop⟩) :
    indexes.LeftBeyond := by
  have marks : indexes.comma.token ∈ Tree.tokensOf indexes.parts ∧
      indexes.question.token ∈ Tree.tokensOf indexes.parts := by
    simp [parts]
  have question := sorted.question _ marks.2 indexes.question_symbol
  have head := List.head?_eq_some_head filled
  have final := List.getLast?_eq_some_getLast filled
  refine ⟨_, _, head, final, ?_, stop_le_comma sorted (List.mem_of_getLast? final),
    sorted.each _ marks.1, Nat.lt_of_le_of_lt (comma_le_question sorted) question⟩
  rw [span, starts _ head]

/-- One expression keeps its span as the left part, and several have one that goes on beyond the
comma. -/
theorem leftExact_iff_of_items
    {start : Nat}
    {first : Tree}
    {items : List Tree}
    (left : indexes.left = (Tree.unlessSingle .expressionList
      ⟨start, indexes.question.token.stop⟩ (first :: items)).withRole .lhs)
    (other : first.kind? ≠ some .expressionList)
    (filled : first.Filled)
    (tight : (first.withRole .lhs).Tight)
    (starts : ∀ token, first.tokens.head? = some token → token.start = start) :
    (indexes.LeftExact ↔ indexes.left.kind? ≠ some .expressionList) ∧
      (indexes.left.kind? = some .expressionList → indexes.LeftBeyond) := by
  cases items with
  | nil =>
    have same : indexes.left = first.withRole .lhs := by
      rw [left]
      cases first with
      | leaf _ _ => exact absurd rfl filled.1
      | missing _ => exact absurd rfl filled.1
      | node _ _ _ _ => rfl
    have single : indexes.left.kind? ≠ some .expressionList := by
      rw [same, Tree.kind?_withRole]
      exact other
    have exact : indexes.LeftExact := leftExact_of_tight sorted (same ▸ tight)
    exact ⟨iff_of_true exact single, fun several => absurd several single⟩
  | cons second items =>
    rw [Tree.unlessSingle_cons_cons] at left
    have several : indexes.left.kind? = some .expressionList := by
      rw [left]
      rfl
    have span : indexes.left.span? = some ⟨start, indexes.question.token.stop⟩ := by
      rw [left]
      rfl
    obtain ⟨token, more, tokens⟩ := List.exists_cons_of_ne_nil filled.2
    have whole : indexes.left.tokens = token :: (more ++ Tree.tokensOf (second :: items)) := by
      rw [left]
      simp [tokens]
    have beyond : indexes.LeftBeyond := by
      refine leftBeyond_of_span? sorted (by simp [whole]) ?_ span
      rw [whole]
      rintro _ ⟨⟩
      exact starts token (by rw [tokens]; rfl)
    exact ⟨iff_of_false beyond.not_exact (not_not_intro several), fun _ => beyond⟩

end Sorted

/-- Items in the order of the source, a comma, a `?` and what follows it become an index list whose
parts are in order. -/
theorem exists_of_items
    {stream : TokenStream}
    {index : Nat}
    {span : Span}
    {first : Tree}
    {items : List Tree}
    {comma question : Lexeme}
    {right : Option (Lexeme × Tree)}
    (roles : ∀ part ∈ first :: items, part.role = .item ∨ part.role = .separator)
    (commas : comma.symbol = .mark .comma)
    (mark : question.symbol = .mark .question)
    (others : ∀ comma list, right = some (comma, list) →
      comma.symbol = .mark .comma ∧ list.role = .rhs ∧ list.Filled)
    (other : first.kind? ≠ some .expressionList)
    (filled : first.Filled)
    (starts : ∀ token, first.tokens.head? = some token → token.start = span.start)
    (spanned : Tree.AllSpanned stream index
      (first :: items ++ .leaf .firstComma comma :: .leaf .question question :: rest right))
    (sorted : Token.Sorted (Tree.tokensOf
      (first :: items ++ .leaf .firstComma comma :: .leaf .question question :: rest right))) :
    ∃ indexes : Indexes,
      (Tree.indexList span (first :: items ++ .leaf .firstComma comma ::
        .leaf .question question :: rest right)).children = indexes.parts ∧ indexes.InOrder ∧
      (indexes.LeftExact ↔ indexes.left.kind? ≠ some .expressionList) ∧
      (indexes.left.kind? = some .expressionList → indexes.LeftBeyond) := by
  obtain ⟨indexes, left, rfl, rfl, rfl⟩ : ∃ indexes : Indexes,
      indexes.left = (Tree.unlessSingle .expressionList ⟨span.start, question.token.stop⟩
        (first :: items)).withRole .lhs ∧
      indexes.comma = comma ∧ indexes.question = question ∧ indexes.right = right :=
    ⟨⟨_, comma, question, right, Tree.role_withRole _ _, commas, mark,
      fun comma list found => (others comma list found).imp_right And.left⟩, rfl, rfl, rfl, rfl⟩
  have tokens : Tree.tokensOf indexes.parts = Tree.tokensOf (first :: items ++
      .leaf .firstComma indexes.comma :: .leaf .question indexes.question ::
        rest indexes.right) := by
    rw [parts, left, Tree.tokensOf_cons, Tree.tokens_withRole, Tree.tokens_unlessSingle,
      Tree.tokensOf_append]
  rw [← tokens] at sorted
  obtain ⟨front, back⟩ := Tree.allSpanned_append.mp spanned
  -- the list begins before its `?` ends
  have ahead : span.start ≤ indexes.question.token.stop := by
    have head := List.head?_eq_some_head filled.2
    have member : first.tokens.head filled.2 ∈ indexes.left.tokens := by
      rw [left, Tree.tokens_withRole, Tree.tokens_unlessSingle, Tree.tokensOf_cons]
      exact List.mem_append_left _ (List.head_mem filled.2)
    have start := starts _ head
    have own := sorted.each _ (by simp [parts, member] : first.tokens.head filled.2 ∈ _)
    have comma := sorted.each indexes.comma.token (by simp [parts])
    have question := sorted.each indexes.question.token (by simp [parts])
    have before := stop_le_comma sorted member
    have between := comma_le_question sorted
    omega
  refine ⟨indexes, ?_, inOrder_of_sorted sorted ?_,
    leftExact_iff_of_items sorted left other filled ?_ starts⟩
  · rw [Tree.indexList_eq (List.cons_ne_nil _ _) roles, Tree.spanTo_leaf ahead, parts, left]
    rfl
  · intro second list found
    have after := (Tree.allSpanned_cons.mp (Tree.allSpanned_cons.mp back).2).2
    rw [found, rest] at after
    have own := (Tree.allSpanned_cons.mp (Tree.allSpanned_cons.mp after).2).1
    exact own.tight (others second list found).2.2
  · exact (Tree.spanned_withRole (Tree.allSpanned_cons.mp front).1).tight (filled.withRole .lhs)

end Indexes

namespace Production

open Grammar

variable
  {budget index : Nat}
  {name : String}
  {text : List Char}
  {cursor after : Cursor}
  {tree : Tree}

/-- An expression is neither a list of expressions nor an index list. -/
theorem Reads.kind?_expression
    (h : Reads budget expression cursor tree after) :
    tree.kind? ≠ some .expressionList ∧ tree.kind? ≠ some .indexList := by
  obtain ⟨kind, found, among⟩ := h.exists_kind? (Rule.layered_production .expression)
  obtain ⟨list, indexes⟩ := Rule.lists_production .expression
  rw [found, Ne, Ne, Option.some.injEq, Option.some.injEq]
  constructor
  · rintro rfl
    exact absurd (list among) (by decide)
  · rintro rfl
    exact absurd (indexes among) (by decide)

/-- What is read of an index list with expressions before its `?`. -/
theorem exists_indexes
    (short : text.length < wordCount)
    (place : cursor.At (.ofText name text) index)
    (h : Reads budget indexList cursor tree after)
    (kind : tree.kind? = some .indexList)
    (left : tree.has .lhs = true) :
    ∃ indexes : Indexes, tree.children = indexes.parts ∧ indexes.InOrder ∧
      (indexes.LeftExact ↔ indexes.left.kind? ≠ some .expressionList) ∧
      (indexes.left.kind? = some .expressionList → indexes.LeftBeyond) := by
  cases h with
  | assemble inner =>
    have spanned := inner.allSpanned short (Rule.joined_production .indexList) place
    have sorted := inner.sorted short place
    cases inner with
    | first _ leading =>
      obtain ⟨question, right, rfl, -, others⟩ := exists_of_reads_question leading
      have nothing := Tree.has_lhs_indexList_question
        (fun comma list found => (others comma list found).2.1) (after.spanFrom cursor.start)
          question
      exact absurd (nothing.symm.trans left) Bool.false_ne_true
    | second _ following =>
      cases following with
      | seq head others =>
        cases head with
        | @part _ _ _ _ _ read single =>
          obtain ⟨items, ending, rfl, roles, ends⟩ :=
            exists_of_reads_tail (reads_seq_empty_iff.mp others)
          have filled := single.filled (Rule.layered_production .expression) (by decide)
          obtain ⟨other, another⟩ := single.kind?_expression
          have roles := List.forall_mem_cons.mpr ⟨.inl (Tree.role_withRole .item read), roles⟩
          rcases ends with rfl | ⟨comma, back, middle, symbol, rfl, exit⟩
          · rw [List.append_nil] at kind
            refine absurd kind (Tree.kind?_indexList_ne ?_ roles _)
            rwa [Tree.kind?_withRole]
          · obtain ⟨question, right, rfl, mark, others⟩ := exists_of_reads_question exit
            refine Indexes.exists_of_items roles symbol mark others ?_ (filled.withRole .item) ?_
              spanned sorted
            · rwa [Tree.kind?_withRole]
            · intro token head
              rw [Tree.tokens_withRole] at head
              exact single.start_eq (by simpa using head)

end Production

/-- Only one production reads index lists. -/
theorem confines_indexList :
    (∀ level : Level, level.production.confines .indexList Grammar.indexList = true) ∧
      ∀ rule : Rule, rule.production.confines .indexList Grammar.indexList = true := by
  have every :
      (∀ level ∈ Level.all,
        level.production.confines .indexList Grammar.indexList = true) ∧
      ∀ rule ∈ Rule.all, rule.production.confines .indexList Grammar.indexList = true := by
    decide +kernel
  exact ⟨fun level => every.1 level level.mem_all, fun rule => every.2 rule rule.mem_all⟩

/-- Index lists are in the order of the source up to the span of their left part.  Whatever rule is
parsed from whatever place of a source, the parts of every index list with a left part within the
tree lie in the order of the source.  The span of the left part is that of its tokens, and ends
before the comma, if and only if it is one expression.  The span of several expressions goes on
beyond the comma to the end of the `?`.  All places in the source must be offsets. -/
theorem Source.indexLists_exact_iff
    {source : Source}
    {rule : Rule}
    {index : Nat}
    {cursor after : Cursor}
    {tree list : Tree}
    (short : source.text.length < wordCount)
    (place : cursor.At (.ofSource source) index)
    (parsed : rule.parse cursor = .ok tree after)
    (within : list.Within tree)
    (kind : list.kind? = some .indexList)
    (left : list.has .lhs = true) :
    ∃ indexes : Indexes, list.children = indexes.parts ∧ indexes.InOrder ∧
      (indexes.LeftExact ↔ indexes.left.kind? ≠ some .expressionList) ∧
      (indexes.left.kind? = some .expressionList → indexes.LeftBeyond) := by
  have reads := Production.run_eq_ok_iff.mp parsed
  have stems := reads.stems short confines_indexList.1 (confines_indexList.2 rule) place
  obtain ⟨budget, index, cursor, after, read, place, reads, same⟩ :=
    stems tree List.mem_cons_self list within kind
  have children : list.children = read.children := by
    rw [same]
    cases read <;> rfl
  rw [same, Tree.kind?_withRole] at kind
  rw [Tree.has, children] at left
  rw [children]
  exact Production.exists_indexes short place reads kind left

/-- The theorem applies to one name before a `?`, whose span is exact, and to two, whose span is
not. -/
theorem Source.indexLists_exact_iff_names :
    (∃ tree after, ∃ indexes : Indexes,
      Rule.indexList.parse (.ofStream (.ofSource (.ofText "M" "a, ?, c"))) = .ok tree after ∧
        tree.children = indexes.parts ∧ indexes.InOrder ∧ indexes.LeftExact) ∧
    ∃ tree after, ∃ indexes : Indexes,
      Rule.indexList.parse (.ofStream (.ofSource (.ofText "M" "a, b, ?, c"))) = .ok tree after ∧
        tree.children = indexes.parts ∧ indexes.InOrder ∧ ¬ indexes.LeftExact := by
  -- the kind of the list, whether it has a left part, and the kind of its first part
  have one : (Rule.indexList.parse.value? (.ofStream (.ofSource (.ofText "M" "a, ?, c")))).map
      (fun tree => (tree.kind?, tree.has .lhs, tree.children.head?.bind Tree.kind?)) =
        some (some .indexList, true, some .literal) := by
    decide +kernel
  have two : (Rule.indexList.parse.value? (.ofStream (.ofSource (.ofText "M" "a, b, ?, c")))).map
      (fun tree => (tree.kind?, tree.has .lhs, tree.children.head?.bind Tree.kind?)) =
        some (some .indexList, true, some .expressionList) := by
    decide +kernel
  constructor
  · obtain ⟨tree, found, same⟩ := Option.map_eq_some_iff.mp one
    simp only [Prod.mk.injEq] at same
    obtain ⟨kind, left, single⟩ := same
    obtain ⟨after, parsed⟩ := Parser.value?_eq_some_iff.mp found
    obtain ⟨indexes, parts, ordered, exact, -⟩ :=
      Source.indexLists_exact_iff (by decide +kernel) (Cursor.at_ofStream _ _) parsed
          (.whole tree) kind left
    rw [parts] at single
    refine ⟨tree, after, indexes, parsed, parts, ordered, exact.mpr ?_⟩
    exact fun several => nomatch several.symm.trans single
  · obtain ⟨tree, found, same⟩ := Option.map_eq_some_iff.mp two
    simp only [Prod.mk.injEq] at same
    obtain ⟨kind, left, several⟩ := same
    obtain ⟨after, parsed⟩ := Parser.value?_eq_some_iff.mp found
    obtain ⟨indexes, parts, ordered, exact, -⟩ :=
      Source.indexLists_exact_iff (by decide +kernel) (Cursor.at_ofStream _ _) parsed
          (.whole tree) kind left
    rw [parts] at several
    exact ⟨tree, after, indexes, parsed, parts, ordered, fun own => exact.mp own several⟩

end Oberon
