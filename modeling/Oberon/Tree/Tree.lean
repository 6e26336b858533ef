import Oberon.Token
import Oberon.Tree.Kind

/-!
# The syntax tree

A tree keeps every token of the construct it stands for, in the order of the source: its leaves are
lexemes, and its nodes have a kind, a span and children.  Every part carries the role that it plays
in the node above it.  A place that the grammar leaves open, such as that of a semicolon that may be
left out, is kept as a missing part.

`Tree.leaves` reads the lexemes off again and `Tree.tokens` their tokens, `Tree.height` measures the
nesting, and `Tree.walk` lists the nodes in preorder.
-/

namespace Oberon

/-- A construct, one of its tokens, or a place for one. -/
inductive Tree where
  | leaf (role : Role) (lexeme : Lexeme)
  | missing (role : Role)
  | node (role : Role) (kind : Kind) (span : Span) (children : List Tree)
  deriving Repr, Inhabited

namespace Tree

/-- The role of a part. -/
def role : Tree → Role
  | leaf role _ => role
  | missing role => role
  | node role _ _ _ => role

/-- The same part in another role. -/
def withRole (role : Role) : Tree → Tree
  | leaf _ lexeme => leaf role lexeme
  | missing _ => missing role
  | node _ kind span children => node role kind span children

/-- The kind of a construct. -/
def kind? : Tree → Option Kind
  | node _ kind _ _ => some kind
  | _ => none

/-- The characters that a part covers; none for a missing one. -/
def span? : Tree → Option Span
  | leaf _ lexeme => some lexeme.token.span
  | missing _ => none
  | node _ _ span _ => some span

/-- The parts of a construct. -/
def children : Tree → List Tree
  | node _ _ _ children => children
  | _ => []

/-- The parts of a construct in a role. -/
def parts (tree : Tree) (role : Role) : List Tree := tree.children.filter (·.role == role)

/-- The first part of a construct in a role. -/
def part? (tree : Tree) (role : Role) : Option Tree := tree.children.find? (·.role == role)

/-- True if a construct has a part in a role. -/
def has (tree : Tree) (role : Role) : Bool := tree.children.any (·.role == role)

/-- The symbol of a token. -/
def symbol? : Tree → Option Symbol
  | leaf _ lexeme => some lexeme.symbol
  | _ => none

/-- The symbol of the first part in a role. -/
def partSymbol? (tree : Tree) (role : Role) : Option Symbol := (tree.part? role).bind symbol?

mutual

/-- The lexemes of a part, in order. -/
def leaves : Tree → List Lexeme
  | leaf _ lexeme => [lexeme]
  | missing _ => []
  | node _ _ _ children => leavesOf children

/-- The lexemes of several parts, in order. -/
def leavesOf : List Tree → List Lexeme
  | [] => []
  | tree :: rest => tree.leaves ++ leavesOf rest

end

mutual

/-- The length of the longest chain of nested constructs. -/
def height : Tree → Nat
  | leaf _ _ => 0
  | missing _ => 0
  | node _ _ _ children => heightOf children + 1

/-- The greatest height among several parts. -/
def heightOf : List Tree → Nat
  | [] => 0
  | tree :: rest => max tree.height (heightOf rest)

end

/-- The tokens of a part, in order. -/
def tokens (tree : Tree) : List Token := tree.leaves.map (·.token)

/-- The tokens of several parts, in order. -/
def tokensOf (trees : List Tree) : List Token := (leavesOf trees).map (·.token)

@[simp] theorem leavesOf_append
    (front back : List Tree) :
    leavesOf (front ++ back) = leavesOf front ++ leavesOf back := by
  induction front with
  | nil => rfl
  | cons tree rest ih => simp [leavesOf, ih]

@[simp] theorem leaves_withRole
    (role : Role)
    (tree : Tree) :
    (tree.withRole role).leaves = tree.leaves := by
  cases tree <;> simp [withRole, leaves]

@[simp] theorem tokens_leaf
    (role : Role)
    (lexeme : Lexeme) :
    (leaf role lexeme).tokens = [lexeme.token] := by
  simp [tokens, leaves]

@[simp] theorem tokens_missing
    (role : Role) :
    (missing role).tokens = [] := by
  simp [tokens, leaves]

@[simp] theorem tokens_node
    (role : Role)
    (kind : Kind)
    (span : Span)
    (children : List Tree) :
    (node role kind span children).tokens = tokensOf children := by
  simp [tokens, leaves, tokensOf]

@[simp] theorem tokens_withRole
    (role : Role)
    (tree : Tree) :
    (tree.withRole role).tokens = tree.tokens := by
  simp [tokens]

@[simp] theorem tokensOf_nil : tokensOf [] = [] := rfl

@[simp] theorem tokensOf_cons
    (tree : Tree)
    (rest : List Tree) :
    tokensOf (tree :: rest) = tree.tokens ++ tokensOf rest := by
  simp [tokensOf, leavesOf, tokens]

@[simp] theorem tokensOf_append
    (front back : List Tree) :
    tokensOf (front ++ back) = tokensOf front ++ tokensOf back := by
  simp [tokensOf]

@[simp] theorem role_withRole
    (role : Role)
    (tree : Tree) :
    (tree.withRole role).role = role := by
  cases tree <;> rfl

mutual

/-- Decides whether two parts are equal. -/
def decEq : (left right : Tree) → Decidable (left = right)
  | leaf role lexeme, leaf role' lexeme' =>
    if h : role = role' ∧ lexeme = lexeme' then .isTrue (by simp [h])
    else .isFalse (by simpa using h)
  | missing role, missing role' =>
    if h : role = role' then .isTrue (by simp [h])
    else .isFalse (by simpa using h)
  | node role kind span children, node role' kind' span' children' =>
    if h : role = role' ∧ kind = kind' ∧ span = span' then
      match decEqAll children children' with
      | .isTrue same => .isTrue (by simp [h, same])
      | .isFalse other => .isFalse (by simp [other])
    else
      .isFalse (by rintro ⟨⟩; simp at h)
  | leaf .., missing .. => .isFalse (by simp)
  | leaf .., node .. => .isFalse (by simp)
  | missing .., leaf .. => .isFalse (by simp)
  | missing .., node .. => .isFalse (by simp)
  | node .., leaf .. => .isFalse (by simp)
  | node .., missing .. => .isFalse (by simp)

/-- Decides whether two lists of parts are equal. -/
def decEqAll : (left right : List Tree) → Decidable (left = right)
  | [], [] => .isTrue rfl
  | [], _ :: _ => .isFalse (by simp)
  | _ :: _, [] => .isFalse (by simp)
  | tree :: rest, tree' :: rest' =>
    match decEq tree tree' with
    | .isFalse other => .isFalse (by simp [other])
    | .isTrue same =>
      match decEqAll rest rest' with
      | .isTrue sameRest => .isTrue (by simp [same, sameRest])
      | .isFalse other => .isFalse (by simp [other])

end

instance : DecidableEq Tree := decEq

end Tree

end Oberon
