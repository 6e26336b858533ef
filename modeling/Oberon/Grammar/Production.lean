import Oberon.Tree.Tree
import Oberon.Violation

/-!
# Productions

The grammar is data.  A production says which tokens a construct or a part of one consists of, what
roles they play and what to complain about; it is deterministic, since every choice is made by the
symbol of the next token alone.

A production yields either one construct or a list of parts.  Recursion goes through four levels
only: a production refers to factors, statements, types and declarations by `deeper`, and each such
reference counts as one level of nesting.  All other productions are finite terms without cycles.

An assembly turns the parts of a construct into its tree.  Most constructs are simply nodes; some
take the place of their only part, and binary operators associate to the left.
-/

namespace Oberon

/-- What a production yields. -/
inductive Yield where
  | construct
  | parts
  deriving DecidableEq, Repr

/-- The constructs whose nesting is limited. -/
inductive Level where
  | factor
  | statement
  | type
  | declarations
  deriving DecidableEq, Repr, Inhabited

/-- How the parts of a construct become a tree.  They are the children of a node, but a single
construct can stand for itself (`unlessSingle`), operators can associate to the left (`chain`), and
the kind can depend on whether a role occurs (`byRole`).  A list of expressions is an index list if
a `?` is among them, and the word `NEW` alone is a name and no allocation. -/
inductive Assembly where
  | node (kind : Kind)
  | unlessSingle (kind : Kind)
  | chain (kind : Kind)
  | byRole (role : Role) (present absent : Kind)
  | indexList
  | allocation
  deriving DecidableEq, Repr

/-- A rule of the grammar, or a piece of one.  A `branch` takes its first alternative if the next
symbol is one of those named, `many` reads items as long as it is, and `tail` reads separators with
an item after each; a separator before one of the stop symbols has a role of its own, and ends the
list with what the `exit` reads.  A `reclaim` reads the body of a record and its closing `END`,
which is handed back if the last field of the body has taken it for its own. -/
inductive Production : Yield → Type where
  | empty : Production .parts
  | token (role : Role) (symbols : List Symbol) (reason : Reason) : Production .parts
  | gap (role : Role) : Production .parts
  | fail {yield : Yield} (reason : Reason) : Production yield
  | seq (first second : Production .parts) : Production .parts
  | branch {yield : Yield} (starts : List Symbol) (first second : Production yield) :
      Production yield
  | many (starts : List Symbol) (item : Production .parts) : Production .parts
  | tail (separator : Symbol) (role : Role) (stops : List Symbol) (exitRole : Role)
      (exit item : Production .parts) : Production .parts
  | part (role : Role) (construct : Production .construct) : Production .parts
  | assemble (assembly : Assembly) (parts : Production .parts) : Production .construct
  | deeper (level : Level) : Production .construct
  | reclaim (body closing : Production .parts) : Production .parts

namespace Production

/-- A token of a required symbol. -/
def expect (role : Role) (symbol : Symbol) (rule : String) : Production .parts :=
  .token role [symbol] (.missing symbol rule)

/-- A required word. -/
def word (role : Role) (w : Word) (rule : String) : Production .parts :=
  expect role (.word w) rule

/-- A required mark. -/
def mark (role : Role) (m : Mark) (rule : String) : Production .parts :=
  expect role (.mark m) rule

/-- A required identifier. -/
def name (role : Role) (rule : String) : Production .parts :=
  expect role .ident rule

/-- A token of one of several required symbols. -/
def oneOf (role : Role) (symbols : List Symbol) (rule : String) : Production .parts :=
  .token role symbols (.noAlternative symbols rule)

/-- Parts that are there if the next symbol is in the list. -/
def optional (starts : List Symbol) (parts : Production .parts) : Production .parts :=
  .branch starts parts .empty

/-- A token that is there if it is one of the symbols. -/
def optionalToken (role : Role) (symbols : List Symbol) (rule : String) : Production .parts :=
  optional symbols (oneOf role symbols rule)

/-- Parts one after the other. -/
def all (pieces : List (Production .parts)) : Production .parts :=
  pieces.foldr .seq .empty

/-- One or more items with separators between them. -/
def sepBy (separator : Symbol) (item : Production .parts) : Production .parts :=
  .seq item (.tail separator .separator [] .separator .empty item)

/-- A node with parts. -/
def node (kind : Kind) (pieces : List (Production .parts)) : Production .construct :=
  .assemble (.node kind) (all pieces)

/-- The first alternative that the next symbol starts, or else the last resort. -/
def choose
    {yield : Yield}
    (alternatives : List (List Symbol × Production yield))
    (otherwise : Production yield) :
    Production yield :=
  alternatives.foldr (fun alternative rest => .branch alternative.1 alternative.2 rest) otherwise

end Production

end Oberon
