import Oberon.Tree.Tree

/-!
# Walking a tree

What can be said of a construct from its own tokens, and the list of all constructs of a tree in
preorder, each with the depth at which it stands.  The size of a mathematical array adds no depth of
its own.
-/

namespace Oberon

/-- What can be said of a construct. -/
inductive Trait where
  | entireRange
  | assignment
  | call
  | forward
  | generic
  | input
  | output
  | exportedReadOnly
  | exportedReadWrite
  | hidden
  deriving DecidableEq, Repr, Inhabited

namespace Tree

/-- Whether a trait applies to a construct of a kind. -/
def hasTrait (tree : Tree) : Trait → Bool
  | .entireRange => tree.has .star
  | .assignment => tree.partSymbol? .operator == some (.mark .becomes)
  | .call => !tree.has .operator
  | .forward => tree.partSymbol? .modifier == some (.mark .arrow)
  | .generic => !tree.has .ending
  | .input => tree.partSymbol? .direction == some (.word .IN)
  | .output => tree.partSymbol? .direction == some (.word .OUT)
  | .exportedReadOnly => tree.partSymbol? .exportMark == some (.mark .minus)
  | .exportedReadWrite => tree.partSymbol? .exportMark == some (.mark .times)
  | .hidden => !tree.has .exportMark

end Tree

namespace Kind

/-- The traits that a construct of a kind can have. -/
def traits : Kind → List Trait
  | range => [.entireRange]
  | simpleStatement => [.assignment, .call]
  | procedureDeclaration => [.forward]
  | objectType => [.generic]
  | portType => [.input, .output]
  | identifierDefinition => [.exportedReadOnly, .exportedReadWrite, .hidden]
  | _ => []

end Kind

/-- A construct met on a walk, and how many constructs it stands in. -/
structure Step where
  depth : Nat
  kind : Kind
  span : Span
  traits : List Trait
  deriving DecidableEq, Repr

namespace Tree

mutual

/-- The constructs of a part in preorder, where the part stands at a depth. -/
def walkFrom (depth : Nat) : Tree → List Step
  | leaf _ _ => []
  | missing _ => []
  | node role kind span children =>
    if kind.isSize then
      walkAll depth children
    else
      ⟨depth, kind, span, kind.traits.filter (node role kind span children).hasTrait⟩
        :: walkAll (depth + 1) children

/-- The constructs of several parts in preorder. -/
def walkAll (depth : Nat) : List Tree → List Step
  | [] => []
  | tree :: rest => tree.walkFrom depth ++ walkAll depth rest

end

/-- The constructs of a tree in preorder. -/
def walk (tree : Tree) : List Step := tree.walkFrom 0

end Tree

end Oberon
