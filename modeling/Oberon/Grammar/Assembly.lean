import Oberon.Grammar.Production

/-!
# Assembling trees

What an assembly makes of the parts of a construct and of its span, which reaches from the start of
its first token to the end of the last token that was consumed, and never back.  Some constructs
that are a single token have the span of that token instead.

Assembling neither loses nor reorders a token (`tokens_assemble`), and handing an `END` back to a
record does not either (`tokensOf_of_reclaimEnd?`).
-/

namespace Oberon

/-- The role of the token whose span a construct has if it consists of nothing else. -/
def Kind.tokenRole? : Kind → Option Role
  | .literal | .atom | .dereference | .assemblerBlock | .builtinType => some .token
  | .exitStatement | .objectType => some .keyword
  | .range => some .star
  | _ => none

namespace Tree

/-- The span of a construct with some parts. -/
def spanOf (kind : Kind) (span : Span) (parts : List Tree) : Span :=
  match kind.tokenRole?, parts with
  | some role, [leaf own lexeme] => if own = role then lexeme.token.span else span
  | _, _ => span

/-- The span from an offset to the end of the last token of a part. -/
def spanTo (start : Nat) (tree : Tree) : Span :=
  ⟨start, max ((tree.tokens.getLast?.map (·.stop)).getD start) start⟩

/-- A node, or the construct that is its only part. -/
def unlessSingle (kind : Kind) (span : Span) : List Tree → Tree
  | [node _ inner innerSpan children] => node .root inner innerSpan children
  | parts => node .root kind (spanOf kind span parts) parts

/-- Where a part ends, or an offset if it is missing. -/
def stopOr (offset : Nat) (tree : Tree) : Nat := (tree.span?.map (·.stop)).getD offset

/-- Joins operators and operands to an operand on their left.  All joined operands start where the
first one does. -/
def chain (kind : Kind) (start : Nat) (left : Tree) : List Tree → Tree
  | [] => left
  | [last] => node .root kind (spanTo start last) [left.withRole .lhs, last]
  | operator :: right :: rest =>
    chain kind start
      (node .root kind (spanTo start right)
        [left.withRole .lhs, operator, right.withRole .rhs])
      rest

/-- An index list from its items, commas and `?`.  The items before the `?` are one part, which
reaches up to the `?` if there are several. -/
def indexList (span : Span) (parts : List Tree) : Tree :=
  match parts.find? (·.role == .question) with
  | none => unlessSingle .expressionList span parts
  | some question =>
    let before : Tree → Bool := fun part => part.role == .item || part.role == .separator
    match parts.takeWhile before with
    | [] => node .root .indexList span parts
    | items =>
      let left := unlessSingle .expressionList (spanTo span.start question) items
      node .root .indexList span (left.withRole .lhs :: parts.dropWhile before)

/-- An allocation from its parts.  `NEW` alone is a name. -/
def allocation (span : Span) : List Tree → Tree
  | [leaf _ lexeme] =>
    node .root .literal lexeme.token.span [leaf .token ⟨lexeme.token, lexeme.symbol.reading⟩]
  | parts => node .root .allocation span parts

/-- The tree of a construct. -/
def assemble (assembly : Assembly) (span : Span) (parts : List Tree) : Tree :=
  match assembly with
  | .node kind => node .root kind (spanOf kind span parts) parts
  | .unlessSingle kind => unlessSingle kind span parts
  | .chain kind =>
    match parts with
    | [] => node .root kind span []
    | first :: rest => chain kind span.start (first.withRole .root) rest
  | .byRole role present absent =>
    node .root (if parts.any (·.role == role) then present else absent) span parts
  | .indexList => indexList span parts
  | .allocation => allocation span parts

/-- Takes the `END` out of an object type that holds nothing else. -/
def releaseEnd? : Tree → Option (Tree × Tree)
  | node role .objectType _
      [leaf .keyword object, node .declarations .declarations _ [], leaf .ending ending] =>
    some (node role .objectType object.token.span [leaf .keyword object], leaf .ending ending)
  | _ => none

/-- Takes the `END` out of a field whose type is an object type that holds nothing else. -/
def releaseFieldEnd? : Tree → Option (Tree × Tree)
  | node role .variableDeclaration span [names, colon, type] =>
    (releaseEnd? type).map fun (object, ending) =>
      (node role .variableDeclaration ⟨span.start, object.stopOr span.stop⟩ [names, colon, object],
        ending)
  | _ => none

/-- Takes the `END` out of the last field of a record, if no semicolon follows it, and puts it after
the fields. -/
def reclaimEnd? (parts : List Tree) : Option (List Tree) :=
  match parts.reverse with
  | missing .semicolon :: field :: before =>
    (releaseFieldEnd? field).map fun (field, ending) =>
      (ending :: missing .semicolon :: field :: before).reverse
  | _ => none

@[simp] theorem tokens_unlessSingle
    (kind : Kind)
    (span : Span)
    (parts : List Tree) :
    (unlessSingle kind span parts).tokens = tokensOf parts := by
  fun_cases unlessSingle kind span parts <;> simp

@[simp] theorem tokens_chain
    (kind : Kind)
    (start : Nat)
    (left : Tree)
    (parts : List Tree) :
    (chain kind start left parts).tokens = left.tokens ++ tokensOf parts := by
  fun_induction chain kind start left parts <;> simp_all

@[simp] theorem tokens_indexList
    (span : Span)
    (parts : List Tree) :
    (indexList span parts).tokens = tokensOf parts := by
  fun_cases indexList span parts with
  | case1 => simp
  | case2 => simp
  | case3 question _ before _ left =>
    simp only [tokens_node, tokensOf_cons, tokens_withRole, left, tokens_unlessSingle,
      ← tokensOf_append]
    exact congrArg tokensOf List.takeWhile_append_dropWhile

@[simp] theorem tokens_allocation
    (span : Span)
    (parts : List Tree) :
    (allocation span parts).tokens = tokensOf parts := by
  fun_cases allocation span parts <;> simp

/-- A construct has the tokens of its parts. -/
@[simp] theorem tokens_assemble
    (assembly : Assembly)
    (span : Span)
    (parts : List Tree) :
    (assemble assembly span parts).tokens = tokensOf parts := by
  fun_cases assemble assembly span parts <;> simp

theorem tokens_of_releaseEnd?
    {tree object ending : Tree}
    (h : tree.releaseEnd? = some (object, ending)) :
    tree.tokens = object.tokens ++ ending.tokens := by
  fun_cases releaseEnd? tree <;> simp_all [releaseEnd?]
  obtain ⟨rfl, rfl⟩ := h
  simp

theorem tokens_of_releaseFieldEnd?
    {tree field ending : Tree}
    (h : tree.releaseFieldEnd? = some (field, ending)) :
    tree.tokens = field.tokens ++ ending.tokens := by
  fun_cases releaseFieldEnd? tree with
  | case1 role span names colon type =>
    simp only [releaseFieldEnd?, Option.map_eq_some_iff, Prod.exists, Prod.mk.injEq] at h
    obtain ⟨object, _, released, rfl, rfl⟩ := h
    simp [tokens_of_releaseEnd? released]
  | case2 => simp_all [releaseFieldEnd?]

/-- A record that takes an `END` back has the same tokens as before. -/
theorem tokensOf_of_reclaimEnd?
    {parts reclaimed : List Tree}
    (h : reclaimEnd? parts = some reclaimed) :
    tokensOf reclaimed = tokensOf parts := by
  unfold reclaimEnd? at h
  split at h
  · rename_i field before reversed
    simp only [Option.map_eq_some_iff, Prod.exists] at h
    obtain ⟨released, ending, he, rfl⟩ := h
    rw [← parts.reverse_reverse, reversed]
    simp [tokens_of_releaseFieldEnd? he]
  · cases h

end Tree

end Oberon
