import Oberon.Proofs.Place
import Oberon.Proofs.Roles

/-!
# The spans of constructs

`Tree.constructs` lists all constructs of a tree, each with the index of the token at which it
begins.  Only a list of indexes before a `?` is left out, which reaches further than its tokens.

Whatever rule is parsed from whatever place of a stream, all these constructs reach from the start
of their first token to the end of their last, and those without a token are empty and lie where the
cursor stood (`Source.parse_spans`).  Most spans are taken from the cursor or from a single token;
those of sums and products are put together from their operands, which therefore must not be empty
(`Production.productive`), and those of a record field and its type change when the record takes its
`END` back.
-/

namespace Oberon

/-- The span of some tokens; without any, the empty span at an offset. -/
def Span.ofTokens (offset : Nat) (tokens : List Token) : Span :=
  ⟨(tokens.head?.map (·.start)).getD offset, (tokens.getLast?.map (·.stop)).getD offset⟩

/-- The offset at which the token at an index starts. -/
def TokenStream.startAt (stream : TokenStream) (index : Nat) : Nat :=
  (stream.tokens[index]?.map (·.start)).getD 0

namespace Kind

/-- True of the list before a `?` in a construct of this kind. -/
def overreaches (kind : Kind) (part : Tree) : Bool :=
  kind == .indexList && part.role == .lhs && part.kind? == some .expressionList

end Kind

namespace Tree

mutual

/-- The constructs of a part that begins at an index, each with the index at which it begins. -/
def constructs (index : Nat) : Tree → List (Nat × Tree)
  | leaf _ _ => []
  | missing _ => []
  | node role kind span children =>
    (index, node role kind span children) :: constructsOf kind.overreaches index children

/-- The constructs of several parts, some of which do not count themselves. -/
def constructsOf (skipped : Tree → Bool) (index : Nat) : List Tree → List (Nat × Tree)
  | [] => []
  | tree :: rest =>
    (if skipped tree then (constructs index tree).tail else constructs index tree) ++
      constructsOf skipped (index + tree.tokens.length) rest

end

/-- A construct that begins at an index of a stream has the span of its tokens. -/
def Exact (stream : TokenStream) (index : Nat) (tree : Tree) : Prop :=
  tree.span? = some (Span.ofTokens (stream.startAt index) tree.tokens)

/-- All constructs of a part that begins at an index have the span of their tokens. -/
def Spanned (stream : TokenStream) (index : Nat) (tree : Tree) : Prop :=
  ∀ place ∈ tree.constructs index, place.2.Exact stream place.1

/-- All constructs of several parts have the span of their tokens. -/
def AllSpanned (stream : TokenStream) (index : Nat) (trees : List Tree) : Prop :=
  ∀ place ∈ constructsOf (fun _ => false) index trees, place.2.Exact stream place.1

section Spanned

variable
  {stream : TokenStream}
  {index : Nat}

theorem allSpanned_nil : AllSpanned stream index [] := by
  intro place member
  cases member

theorem allSpanned_cons
    {tree : Tree}
    {trees : List Tree} :
    AllSpanned stream index (tree :: trees) ↔
      tree.Spanned stream index ∧ AllSpanned stream (index + tree.tokens.length) trees := by
  rw [AllSpanned, constructsOf, if_neg Bool.false_ne_true, List.forall_mem_append]
  rfl

theorem allSpanned_append
    {front back : List Tree} :
    AllSpanned stream index (front ++ back) ↔
      AllSpanned stream index front ∧
        AllSpanned stream (index + (tokensOf front).length) back := by
  induction front generalizing index with
  | nil => simp [allSpanned_nil]
  | cons tree front ih =>
    rw [List.cons_append, allSpanned_cons, allSpanned_cons, ih, tokensOf_cons,
      List.length_append, Nat.add_assoc, and_assoc]

theorem spanned_leaf
    (role : Role)
    (lexeme : Lexeme) :
    (leaf role lexeme).Spanned stream index := by
  intro place member
  cases member

theorem spanned_missing (role : Role) : (missing role).Spanned stream index := by
  intro place member
  cases member

theorem mem_constructsOf
    {skipped : Tree → Bool}
    {trees : List Tree}
    {place : Nat × Tree}
    (member : place ∈ constructsOf skipped index trees) :
    place ∈ constructsOf (fun _ => false) index trees := by
  induction trees generalizing index with
  | nil => cases member
  | cons tree trees ih =>
    rw [constructsOf, List.mem_append] at member ⊢
    rw [if_neg Bool.false_ne_true]
    rcases member with own | others
    · left
      split at own
      · exact List.mem_of_mem_tail own
      · exact own
    · exact .inr (ih others)

/-- A construct with an exact span whose parts have exact spans. -/
theorem spanned_node
    {role : Role}
    {kind : Kind}
    {span : Span}
    {children : List Tree}
    (exact : (node role kind span children).Exact stream index)
    (inner : AllSpanned stream index children) :
    (node role kind span children).Spanned stream index := by
  intro place member
  rw [constructs, List.mem_cons] at member
  rcases member with rfl | member
  · exact exact
  · exact inner place (mem_constructsOf member)

theorem Spanned.exact
    {role : Role}
    {kind : Kind}
    {span : Span}
    {children : List Tree}
    (h : (node role kind span children).Spanned stream index) :
    (node role kind span children).Exact stream index := by
  refine h (index, node role kind span children) ?_
  rw [constructs]
  exact List.mem_cons_self

theorem Spanned.children
    {role : Role}
    {kind : Kind}
    {span : Span}
    {children : List Tree}
    (h : (node role kind span children).Spanned stream index)
    (other : (kind == .indexList) = false) :
    AllSpanned stream index children := by
  have none : kind.overreaches = fun _ => false := by
    funext part
    rw [Kind.overreaches, other, Bool.false_and, Bool.false_and]
  intro place member
  refine h place ?_
  rw [constructs, none]
  exact List.mem_cons_of_mem _ member

theorem spanned_withRole
    {tree : Tree}
    {role : Role}
    (h : tree.Spanned stream index) :
    (tree.withRole role).Spanned stream index := by
  cases tree with
  | leaf _ lexeme => exact spanned_leaf role lexeme
  | missing _ => exact spanned_missing role
  | node role' kind span children =>
    intro place member
    rw [withRole, constructs, List.mem_cons] at member
    rcases member with rfl | member
    · have own := h.exact
      simpa [Exact, span?] using own
    · exact h place (by rw [constructs]; exact List.mem_cons_of_mem _ member)

end Spanned

end Tree

namespace Cursor

/-- A lexeme that is passed over does not end before the place where the cursor stood. -/
theorem Ordered.start_le_stop
    {cursor after : Cursor}
    {front : List Lexeme}
    {lexeme : Lexeme}
    (h : cursor.Ordered)
    (passed : cursor.Passes front after)
    (member : lexeme ∈ front) :
    cursor.start ≤ lexeme.token.stop := by
  have upcoming : lexeme ∈ cursor.upcoming := by
    rw [passed.upcoming]
    exact List.mem_append_left _ member
  have own := h.each lexeme upcoming
  obtain ⟨others, split⟩ := cursor.upcoming_eq_cons
  have between := h.between
  have first := h.each cursor.next cursor.next_mem_upcoming
  rw [split] at upcoming between
  rcases List.mem_cons.mp upcoming with same | later
  · rw [same] at own ⊢
    exact own
  · have apart := (List.pairwise_cons.mp between).1 lexeme later
    simp only [start, token]
    omega

/-- The offset of the index at which a cursor stands. -/
theorem Faces.startAt
    {cursor : Cursor}
    {stream : TokenStream}
    {index : Nat}
    (h : cursor.Faces stream index) :
    stream.startAt index = cursor.start := by
  obtain ⟨others, split⟩ := cursor.upcoming_eq_cons
  have found : stream.lexemes[index]? = some cursor.next := by
    rw [← List.head?_drop, ← h.upcoming, split, List.head?_cons]
  simp [TokenStream.startAt, TokenStream.tokens, found, start, token]

end Cursor

/-- A construct whose span is taken from the cursor after all its tokens is exact. -/
theorem Tree.exact_of_passes
    {name : String}
    {text : List Char}
    {index : Nat}
    {cursor after : Cursor}
    {front : List Lexeme}
    {tree : Tree}
    (short : text.length < wordCount)
    (place : cursor.At (.ofText name text) index)
    (passed : cursor.Passes front after)
    (tokens : tree.tokens = front.map (·.token))
    (span : tree.span? = some (after.spanFrom cursor.start)) :
    tree.Exact (.ofText name text) index := by
  rw [Exact, span, tokens, place.startAt, Cursor.spanFrom, passed.reached, Span.ofTokens]
  cases front with
  | nil =>
    have behind := place.reached
    simp only [List.map_nil, List.head?_nil, List.getLast?_nil, Option.map_none, Option.getD_none]
    rw [Nat.max_eq_right behind]
  | cons first rest =>
    have start : cursor.start = first.token.start := by
      simp [Cursor.start, Cursor.token, Cursor.next, passed.rest]
    have ends : ∃ last ∈ first :: rest, (first :: rest).getLast? = some last :=
      ⟨_, List.getLast_mem (List.cons_ne_nil _ _), List.getLast?_eq_some_getLast _⟩
    obtain ⟨last, among, final⟩ := ends
    have behind := (place.ordered short).start_le_stop passed among
    rw [List.getLast?_map, final]
    simp only [List.map_cons, List.head?_cons, Option.map_some, Option.getD_some, start]
    rw [Nat.max_eq_left (by omega)]

namespace Tree

section Chain

variable
  {stream : TokenStream}
  {index : Nat}

/-- The tokens of a part are among those of all parts. -/
theorem tokens_subset_tokensOf
    {tree : Tree}
    {trees : List Tree}
    (member : tree ∈ trees) :
    tree.tokens ⊆ tokensOf trees := by
  obtain ⟨front, back, rfl⟩ := List.append_of_mem member
  rw [tokensOf_append, tokensOf_cons]
  exact List.Subset.trans (List.subset_append_left _ _) (List.subset_append_right _ _)

/-- The span to the last token of a part that does not lie before the offset. -/
theorem spanTo_eq
    {start : Nat}
    {tree : Tree}
    (solid : tree.tokens ≠ [])
    (behind : ∀ token ∈ tree.tokens, start ≤ token.stop) :
    spanTo start tree = ⟨start, (tree.tokens.getLast?.map (·.stop)).getD start⟩ := by
  have last := behind _ (List.getLast_mem solid)
  rw [spanTo, List.getLast?_eq_some_getLast solid, Option.map_some, Option.getD_some,
    Nat.max_eq_left last]

theorem ofTokens_append
    {offset start : Nat}
    {front back : List Token}
    (first : front.head?.map (·.start) = some start)
    (solid : back ≠ []) :
    Span.ofTokens offset (front ++ back) =
      ⟨start, (back.getLast?.map (·.stop)).getD start⟩ := by
  rw [Span.ofTokens, List.getLast?_append, List.getLast?_eq_some_getLast solid]
  cases front with
  | nil => cases first
  | cons token front =>
    cases first
    simp

/-- Operands and operators that are not empty are joined to constructs with exact spans. -/
theorem spanned_chain
    {kind : Kind}
    {start : Nat}
    {left : Tree}
    {parts : List Tree}
    (inner : AllSpanned stream index (left :: parts))
    (solid : ∀ tree ∈ parts, tree.tokens ≠ [])
    (behind : ∀ tree ∈ parts, ∀ token ∈ tree.tokens, start ≤ token.stop)
    (first : left.tokens.head?.map (·.start) = some start) :
    (chain kind start left parts).Spanned stream index := by
  fun_induction chain kind start left parts with
  | case1 left => exact (allSpanned_cons.mp inner).1
  | case2 left last =>
    obtain ⟨own, others⟩ := allSpanned_cons.mp inner
    have filled := solid last List.mem_cons_self
    refine spanned_node ?_ (allSpanned_cons.mpr ⟨spanned_withRole own, ?_⟩)
    · rw [Exact, span?, spanTo_eq filled (behind last List.mem_cons_self)]
      simp only [tokens_node, tokensOf_cons, tokens_withRole, tokensOf_nil, List.append_nil]
      rw [ofTokens_append first filled]
    · rw [tokens_withRole]
      exact others
  | case3 left operator right rest ih =>
    obtain ⟨own, others⟩ := allSpanned_cons.mp inner
    obtain ⟨operation, others⟩ := allSpanned_cons.mp others
    obtain ⟨operand, others⟩ := allSpanned_cons.mp others
    have among : right ∈ operator :: right :: rest := List.mem_cons_of_mem _ List.mem_cons_self
    have filled := solid right among
    refine ih (allSpanned_cons.mpr ⟨?_, ?_⟩) ?_ ?_ ?_
    · refine spanned_node ?_ (allSpanned_cons.mpr ⟨spanned_withRole own,
        allSpanned_cons.mpr ⟨?_, allSpanned_cons.mpr ⟨spanned_withRole ?_, allSpanned_nil⟩⟩⟩)
      · rw [Exact, span?, spanTo_eq filled (behind right among)]
        simp only [tokens_node, tokensOf_cons, tokens_withRole, tokensOf_nil, List.append_nil]
        rw [ofTokens_append first (by simp [filled]), List.getLast?_append,
          List.getLast?_eq_some_getLast filled]
        simp
      · rw [tokens_withRole]
        exact operation
      · rw [tokens_withRole]
        exact operand
    · simp only [tokens_node, tokensOf_cons, tokens_withRole, tokensOf_nil, List.append_nil,
        List.length_append, ← Nat.add_assoc]
      exact others
    · intro tree member
      exact solid tree (List.mem_cons_of_mem _ (List.mem_cons_of_mem _ member))
    · intro tree member
      exact behind tree (List.mem_cons_of_mem _ (List.mem_cons_of_mem _ member))
    · simp only [tokens_node, tokensOf_cons, tokens_withRole]
      cases head : left.tokens with
      | nil =>
        rw [head] at first
        cases first
      | cons token others =>
        rw [head] at first
        exact first

end Chain

section Assemble

variable
  {name : String}
  {text : List Char}
  {index : Nat}
  {cursor after : Cursor}
  {front : List Lexeme}
  {trees : List Tree}

/-- A construct with the span of its only token is exact, too. -/
theorem exact_spanOf
    {stream : TokenStream}
    {kind : Kind}
    {span : Span}
    (exact : (node .root kind span trees).Exact stream index) :
    (node .root kind (spanOf kind span trees) trees).Exact stream index := by
  fun_cases spanOf kind span trees with
  | case1 => simp [Exact, span?, Span.ofTokens, Token.span]
  | case2 => exact exact
  | case3 => exact exact

theorem spanned_unlessSingle
    {stream : TokenStream}
    {kind : Kind}
    {span : Span}
    (exact : (node .root kind span trees).Exact stream index)
    (inner : AllSpanned stream index trees) :
    (unlessSingle kind span trees).Spanned stream index := by
  fun_cases unlessSingle kind span trees with
  | case1 role inside innerSpan children =>
    have own := (allSpanned_cons.mp inner).1
    exact @spanned_withRole _ _ _ .root own
  | case2 => exact spanned_node (exact_spanOf exact) inner

/-- Of the items before a `?`, only the list as a whole need not have an exact span. -/
theorem exact_of_mem_left
    {stream : TokenStream}
    {span : Span}
    {place : Nat × Tree}
    (inner : AllSpanned stream index trees)
    (member : place ∈
      if Kind.indexList.overreaches ((unlessSingle .expressionList span trees).withRole .lhs) then
        (constructs index ((unlessSingle .expressionList span trees).withRole .lhs)).tail
      else constructs index ((unlessSingle .expressionList span trees).withRole .lhs)) :
    place.2.Exact stream place.1 := by
  unfold unlessSingle at member
  split at member
  · have own := @spanned_withRole _ _ _ .lhs (allSpanned_cons.mp inner).1
    refine own place ?_
    split at member
    · exact List.mem_of_mem_tail member
    · exact member
  · rw [withRole, constructs] at member
    exact inner place (mem_constructsOf member)

theorem spanned_indexList
    {stream : TokenStream}
    {span : Span}
    (exact : ∀ role kind children, tokensOf children = tokensOf trees →
      (node role kind span children).Exact stream index)
    (inner : AllSpanned stream index trees) :
    (indexList span trees).Spanned stream index := by
  fun_cases indexList span trees with
  | case1 => exact spanned_unlessSingle (exact _ _ _ rfl) inner
  | case2 => exact spanned_node (exact _ _ _ rfl) inner
  | case3 question _ before _ =>
    rename_i left
    have whole : trees.takeWhile before ++ trees.dropWhile before = trees :=
      List.takeWhile_append_dropWhile
    have tokens : left.tokens = tokensOf (trees.takeWhile before) := tokens_unlessSingle _ _ _
    rw [← whole, allSpanned_append] at inner
    obtain ⟨items, others⟩ := inner
    intro place member
    rw [constructs, constructsOf, List.mem_cons, List.mem_append] at member
    rcases member with rfl | own | later
    · refine exact _ _ _ ?_
      rw [tokensOf_cons, tokens_withRole, tokens, ← tokensOf_append, whole]
    · exact exact_of_mem_left items own
    · rw [tokens_withRole, tokens] at later
      exact others place (mem_constructsOf later)

/-- A construct has an exact span if its parts do and, for sums and products, none of them is
empty. -/
theorem spanned_assemble
    {assembly : Assembly}
    (short : text.length < wordCount)
    (place : cursor.At (.ofText name text) index)
    (passed : cursor.Passes front after)
    (tokens : tokensOf trees = front.map (·.token))
    (solid : ∀ kind, assembly = .chain kind → ∀ tree ∈ trees, tree.tokens ≠ [])
    (inner : AllSpanned (.ofText name text) index trees) :
    (assemble assembly (after.spanFrom cursor.start) trees).Spanned (.ofText name text) index := by
  have exact : ∀ role kind children, tokensOf children = tokensOf trees →
      (node role kind (after.spanFrom cursor.start) children).Exact (.ofText name text) index := by
    intro role kind children same
    refine exact_of_passes short place passed ?_ rfl
    rw [tokens_node, same, tokens]
  cases assembly with
  | node kind => exact spanned_node (exact_spanOf (exact _ _ _ rfl)) inner
  | unlessSingle kind => exact spanned_unlessSingle (exact _ _ _ rfl) inner
  | chain kind =>
    cases trees with
    | nil => exact spanned_node (exact _ _ _ rfl) inner
    | cons first rest =>
      obtain ⟨own, others⟩ := allSpanned_cons.mp inner
      have filled := solid kind rfl
      refine spanned_chain (allSpanned_cons.mpr ⟨spanned_withRole own, ?_⟩) ?_ ?_ ?_
      · rw [tokens_withRole]
        exact others
      · intro tree member
        exact filled tree (List.mem_cons_of_mem _ member)
      · intro tree member token among
        have listed : token ∈ tokensOf (first :: rest) :=
          tokens_subset_tokensOf (List.mem_cons_of_mem _ member) among
        rw [tokens] at listed
        obtain ⟨lexeme, consumed, rfl⟩ := List.mem_map.mp listed
        exact (place.ordered short).start_le_stop passed consumed
      · rw [tokens_withRole]
        -- the first token of the first operand is the one at which the cursor stood
        cases head : first.tokens with
        | nil => exact absurd head (filled first List.mem_cons_self)
        | cons token more =>
          cases front with
          | nil => simp [head] at tokens
          | cons lexeme front =>
            have same : token = lexeme.token := by
              simp only [tokensOf_cons, head, List.map_cons, List.cons_append,
                List.cons.injEq] at tokens
              exact tokens.1
            simp [same, Cursor.spanFrom, Cursor.start, Cursor.token, Cursor.next, passed.rest]
  | byRole role present absent => exact spanned_node (exact _ _ _ rfl) inner
  | indexList => exact spanned_indexList exact inner
  | allocation =>
    rw [assemble]
    fun_cases allocation (after.spanFrom cursor.start) trees with
    | case1 role lexeme =>
      refine spanned_node ?_ ?_
      · simp [Exact, span?, Span.ofTokens, Token.span]
      · exact allSpanned_cons.mpr ⟨spanned_leaf _ _, allSpanned_nil⟩
    | case2 => exact spanned_node (exact _ _ _ rfl) inner

end Assemble

/-- A record that takes an `END` back leaves the last field and its type with exact spans. -/
theorem allSpanned_reclaimEnd?
    {stream : TokenStream}
    {index : Nat}
    {parts reclaimed : List Tree}
    (h : reclaimEnd? parts = some reclaimed)
    (inner : AllSpanned stream index parts) :
    AllSpanned stream index reclaimed := by
  obtain ⟨before, role, span, names, colon, type, object, ending, rfl, released, rfl⟩ :=
    reclaimEnd?_eq_some h
  obtain ⟨role', span', inner', word, last, rfl, rfl, rfl⟩ := releaseEnd?_eq_some released
  rw [allSpanned_append] at inner ⊢
  obtain ⟨front, back⟩ := inner
  refine ⟨front, ?_⟩
  have field := (allSpanned_cons.mp back).1
  obtain ⟨own, others⟩ := allSpanned_cons.mp (field.children rfl)
  obtain ⟨mark, -⟩ := allSpanned_cons.mp others
  refine allSpanned_cons.mpr ⟨?_, ?_⟩
  · refine spanned_node ?_ (allSpanned_cons.mpr ⟨own, allSpanned_cons.mpr ⟨mark,
      allSpanned_cons.mpr ⟨?_, allSpanned_nil⟩⟩⟩)
    · have exact := field.exact
      simp only [Exact, span?, tokens_node, tokensOf_cons, tokensOf_nil, tokens_leaf,
        List.append_nil, Option.some.injEq] at exact ⊢
      -- the first token stays, and `OBJECT` is the last one now
      subst exact
      simp [Span.ofTokens, stopOr, span?, Token.span, List.head?_append, List.getLast?_append]
    · refine spanned_node ?_ (allSpanned_cons.mpr ⟨spanned_leaf _ _, allSpanned_nil⟩)
      simp [Exact, span?, Span.ofTokens, Token.span]
  · exact allSpanned_cons.mpr ⟨spanned_missing _, allSpanned_cons.mpr
      ⟨spanned_leaf _ _, allSpanned_nil⟩⟩

end Tree

/-- True of the levels whose constructs have at least one token. -/
def Level.productive : Level → Bool
  | factor | type => true
  | statement | declarations => false

namespace Production

/-- Checks that at least one token is read. -/
def productive : {yield : Yield} → Production yield → Bool
  | _, .empty => false
  | _, .token _ _ _ => true
  | _, .gap _ => false
  | _, .fail _ => true
  | _, .seq first second => first.productive || second.productive
  | _, .branch _ first second => first.productive && second.productive
  | _, .many _ _ => false
  | _, .tail _ _ _ _ _ _ => false
  | _, .part _ construct => construct.productive
  | _, .assemble _ parts => parts.productive
  | _, .deeper level => level.productive
  | _, .reclaim body _ => body.productive

/-- Checks that at least one token is read for each part. -/
def solid : {yield : Yield} → Production yield → Bool
  | _, .empty => true
  | _, .token _ _ _ => true
  | _, .gap _ => false
  | _, .fail _ => true
  | _, .seq first second => first.solid && second.solid
  | _, .branch _ first second => first.solid && second.solid
  | _, .many _ item => item.solid
  | _, .tail _ _ _ _ exit item => exit.solid && item.solid
  | _, .part _ construct => construct.productive
  | _, .assemble _ parts => parts.productive
  | _, .deeper level => level.productive
  | _, .reclaim _ _ => false

/-- Checks that operands and operators that are joined have tokens. -/
def joined : {yield : Yield} → Production yield → Bool
  | _, .empty => true
  | _, .token _ _ _ => true
  | _, .gap _ => true
  | _, .fail _ => true
  | _, .seq first second => first.joined && second.joined
  | _, .branch _ first second => first.joined && second.joined
  | _, .many _ item => item.joined
  | _, .tail _ _ _ _ exit item => exit.joined && item.joined
  | _, .part _ construct => construct.joined
  | _, .assemble (.chain _) parts => parts.solid && parts.joined
  | _, .assemble _ parts => parts.joined
  | _, .deeper _ => true
  | _, .reclaim body closing => body.joined && closing.joined

end Production

theorem Level.productive_production
    (level : Level)
    (h : level.productive = true) :
    level.production.productive = true := by
  cases level with
  | factor => decide +kernel
  | statement => cases h
  | type => decide +kernel
  | declarations => cases h

theorem Level.joined_production (level : Level) : level.production.joined = true := by
  cases level <;> decide +kernel

theorem Rule.joined_production (rule : Rule) : rule.production.joined = true := by
  cases rule <;> decide +kernel

namespace Production.Reads

variable
  {budget : Nat}
  {yield : Yield}
  {production : Production yield}
  {cursor after : Cursor}
  {output : yield.Output}

/-- A productive production yields a token. -/
theorem tokens_ne_nil
    (h : Reads budget production cursor output after)
    (checked : production.productive = true) :
    Tree.tokensOf (Yield.trees output) ≠ [] := by
  induction h with
  | empty => cases checked
  | token => simp
  | gap => cases checked
  | seq _ _ left right =>
    rw [Yield.trees_parts, Tree.tokensOf_append]
    rcases Bool.or_eq_true_iff.mp checked with first | second
    · exact List.append_ne_nil_of_left_ne_nil (left first) _
    · exact List.append_ne_nil_of_right_ne_nil _ (right second)
  | first _ _ ih => exact ih (Bool.and_eq_true_iff.mp checked).1
  | second _ _ ih => exact ih (Bool.and_eq_true_iff.mp checked).2
  | manyStop => cases checked
  | manyStep => cases checked
  | manyStall => cases checked
  | tailStop => cases checked
  | tailStep => cases checked
  | tailExit => cases checked
  | part _ ih => simpa using ih checked
  | assemble _ ih => simpa using ih checked
  | @deeper _ level _ _ _ _ ih => exact ih (level.productive_production checked)
  | reclaimed _ _ handed ih =>
    rw [Yield.trees_parts, Tree.tokensOf_of_reclaimEnd? handed]
    exact ih checked
  | unclaimed _ _ _ inner _ =>
    rw [Yield.trees_parts, Tree.tokensOf_append]
    exact List.append_ne_nil_of_left_ne_nil (inner checked) _

/-- A solid production yields parts with tokens. -/
theorem forall_tokens_ne_nil
    (h : Reads budget production cursor output after)
    (checked : production.solid = true) :
    ∀ tree ∈ Yield.trees output, tree.tokens ≠ [] := by
  induction h with
  | empty => simp
  | token => simp
  | gap => cases checked
  | seq _ _ left right =>
    obtain ⟨first, second⟩ := Bool.and_eq_true_iff.mp checked
    exact List.forall_mem_append.mpr ⟨left first, right second⟩
  | first _ _ ih => exact ih (Bool.and_eq_true_iff.mp checked).1
  | second _ _ ih => exact ih (Bool.and_eq_true_iff.mp checked).2
  | manyStop => simp
  | manyStep _ _ _ _ head others =>
    exact List.forall_mem_append.mpr ⟨head checked, others checked⟩
  | manyStall _ _ _ ih => exact ih checked
  | tailStop => simp
  | tailStep _ _ _ head others =>
    refine List.forall_mem_append.mpr ⟨?_, others checked⟩
    exact List.forall_mem_cons.mpr ⟨by simp, head (Bool.and_eq_true_iff.mp checked).2⟩
  | tailExit _ _ ih =>
    exact List.forall_mem_cons.mpr ⟨by simp, ih (Bool.and_eq_true_iff.mp checked).1⟩
  | part inner _ => simpa using inner.tokens_ne_nil checked
  | assemble inner _ => simpa using inner.tokens_ne_nil checked
  | @deeper _ level _ _ _ inner _ =>
    simpa using inner.tokens_ne_nil (level.productive_production checked)
  | reclaimed => cases checked
  | unclaimed => cases checked

theorem at_after
    {name : String}
    {text : List Char}
    {index : Nat}
    (short : text.length < wordCount)
    (h : Reads budget production cursor output after)
    (place : cursor.At (.ofText name text) index) :
    after.At (.ofText name text) (index + (Tree.tokensOf (Yield.trees output)).length) := by
  obtain ⟨front, passed, tokens⟩ := h.passes
  rw [tokens, List.length_map]
  exact place.passes short passed

/-- What is read from an index on has exact spans. -/
theorem allSpanned
    {name : String}
    {text : List Char}
    {index : Nat}
    (short : text.length < wordCount)
    (h : Reads budget production cursor output after)
    (checked : production.joined = true)
    (place : cursor.At (.ofText name text) index) :
    Tree.AllSpanned (.ofText name text) index (Yield.trees output) := by
  induction h generalizing index with
  | empty => exact Tree.allSpanned_nil
  | token => exact Tree.allSpanned_cons.mpr ⟨Tree.spanned_leaf _ _, Tree.allSpanned_nil⟩
  | gap => exact Tree.allSpanned_cons.mpr ⟨Tree.spanned_missing _, Tree.allSpanned_nil⟩
  | seq front _ left right =>
    obtain ⟨first, second⟩ := Bool.and_eq_true_iff.mp checked
    exact Tree.allSpanned_append.mpr ⟨left first place, right second (front.at_after short place)⟩
  | first _ _ ih => exact ih (Bool.and_eq_true_iff.mp checked).1 place
  | second _ _ ih => exact ih (Bool.and_eq_true_iff.mp checked).2 place
  | manyStop => exact Tree.allSpanned_nil
  | manyStep _ front _ _ head others =>
    exact Tree.allSpanned_append.mpr
      ⟨head checked place, others checked (front.at_after short place)⟩
  | manyStall _ _ _ ih => exact ih checked place
  | tailStop => exact Tree.allSpanned_nil
  | tailStep _ front _ head others =>
    have next := place.passes short (.single ..)
    refine Tree.allSpanned_append.mpr ⟨Tree.allSpanned_cons.mpr ⟨Tree.spanned_leaf _ _, ?_⟩, ?_⟩
    · exact head (Bool.and_eq_true_iff.mp checked).2 next
    · rw [Tree.tokensOf_cons, List.length_append, ← Nat.add_assoc]
      exact others checked (front.at_after short next)
  | tailExit _ _ ih =>
    have next := place.passes short (.single ..)
    refine Tree.allSpanned_cons.mpr ⟨Tree.spanned_leaf _ _, ?_⟩
    exact ih (Bool.and_eq_true_iff.mp checked).1 next
  | part _ ih =>
    have own := (Tree.allSpanned_cons.mp (ih checked place)).1
    exact Tree.allSpanned_cons.mpr ⟨Tree.spanned_withRole own, Tree.allSpanned_nil⟩
  | @assemble _ assembly _ _ _ _ inner ih =>
    obtain ⟨front, passed, tokens⟩ := inner.passes
    refine Tree.allSpanned_cons.mpr ⟨?_, Tree.allSpanned_nil⟩
    cases assembly with
    | chain kind =>
      obtain ⟨solid, checked⟩ := Bool.and_eq_true_iff.mp checked
      exact Tree.spanned_assemble short place passed tokens
        (fun _ _ => inner.forall_tokens_ne_nil solid) (ih checked place)
    | _ => exact Tree.spanned_assemble short place passed tokens nofun (ih checked place)
  | @deeper _ level _ _ _ _ ih => exact ih level.joined_production place
  | reclaimed _ _ handed ih =>
    exact Tree.allSpanned_reclaimEnd? handed (ih (Bool.and_eq_true_iff.mp checked).1 place)
  | unclaimed front _ _ inner last =>
    obtain ⟨body, closing⟩ := Bool.and_eq_true_iff.mp checked
    exact Tree.allSpanned_append.mpr ⟨inner body place, last closing (front.at_after short place)⟩

end Production.Reads

namespace Tree

mutual

/-- The tokens of a construct are those of the stream from its index on, and it ends within the
part. -/
theorem tokens_of_mem_constructs
    {stream : TokenStream}
    {place : Nat × Tree}
    (index : Nat) :
    (tree : Tree) → tree.tokens <+: stream.tokens.drop index → place ∈ tree.constructs index →
      place.2.tokens <+: stream.tokens.drop place.1 ∧
        place.1 + place.2.tokens.length ≤ index + tree.tokens.length
  | leaf _ _, _, member => by cases member
  | missing _, _, member => by cases member
  | node role kind span children, slice, member => by
    rw [constructs, List.mem_cons] at member
    rcases member with rfl | member
    · exact ⟨slice, Nat.le_refl _⟩
    · exact tokens_of_mem_constructsOf index children slice member

theorem tokens_of_mem_constructsOf
    {stream : TokenStream}
    {place : Nat × Tree}
    {skipped : Tree → Bool}
    (index : Nat) :
    (trees : List Tree) → tokensOf trees <+: stream.tokens.drop index →
      place ∈ constructsOf skipped index trees →
      place.2.tokens <+: stream.tokens.drop place.1 ∧
        place.1 + place.2.tokens.length ≤ index + (tokensOf trees).length
  | [], _, member => by cases member
  | tree :: trees, slice, member => by
    rw [constructsOf, List.mem_append] at member
    rw [tokensOf_cons] at slice
    obtain ⟨rest, whole⟩ := slice
    rw [List.append_assoc] at whole
    rw [tokensOf_cons, List.length_append]
    rcases member with own | others
    · have listed : place ∈ tree.constructs index := by
        split at own
        · exact List.mem_of_mem_tail own
        · exact own
      obtain ⟨prefixed, bound⟩ := tokens_of_mem_constructs index tree ⟨_, whole⟩ listed
      exact ⟨prefixed, by omega⟩
    · have slice : tokensOf trees <+: stream.tokens.drop (index + tree.tokens.length) := by
        refine ⟨rest, ?_⟩
        rw [← List.drop_drop, ← whole, List.drop_left]
      obtain ⟨prefixed, bound⟩ := tokens_of_mem_constructsOf _ trees slice others
      exact ⟨prefixed, by omega⟩

end

end Tree

/-- A construct that begins at an index of a stream covers its tokens and nothing else. -/
structure Tree.Covers (tree : Tree) (stream : TokenStream) (index : Nat) : Prop where
  tokens : tree.tokens <+: stream.tokens.drop index
  filled : ∀ first last, tree.tokens.head? = some first → tree.tokens.getLast? = some last →
    tree.span? = some ⟨first.start, last.stop⟩
  empty : tree.tokens = [] →
    ∃ token, stream.tokens[index]? = some token ∧ tree.span? = some ⟨token.start, token.start⟩

end Oberon
