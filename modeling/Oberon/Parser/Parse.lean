import Oberon.Grammar.Rule
import Oberon.Parser.Machine

/-!
# Parsing

Every rule can be parsed from any place of a stream.  A budget limits how deeply factors,
statements, types and declarations are nested: each such construct is parsed with one level less,
and none is parsed without a level left.

A whole source is a module with nothing after it.  The first violation, if there is one, is reported
after the issues of the scanner.
-/

namespace Oberon

namespace Level

/-- Parses a construct of a level, with some levels of nesting left. -/
def parse : (budget : Nat) → Level → Parser Tree
  | 0, level => Parser.fail (.tooDeep level.rule)
  | budget + 1, level => level.production.run (parse budget)

end Level

namespace Rule

/-- Parses a construct with some levels of nesting left. -/
def parseWithin (budget : Nat) (rule : Rule) : Parser Tree :=
  rule.production.run (Level.parse budget)

/-- Parses a construct. -/
def parse (rule : Rule) : Parser Tree := rule.parseWithin maxNesting

end Rule

/-- Parses a module with nothing after it. -/
def parseModule : Parser Tree := do
  let tree ← Rule.moduleUnit.parse
  Parser.finish
  return tree

/-- What parsing a source comes to. -/
structure Parsed where
  result : Except Violation Tree
  diagnostics : List Diagnostic

namespace Parsed

/-- Parses the lexemes of a source. -/
def ofStream (stream : TokenStream) : Parsed :=
  match parseModule (.ofStream stream) with
  | .ok tree _ => ⟨.ok tree, stream.diagnostics⟩
  | .error violation _ =>
    ⟨.error violation, stream.diagnostics ++ [violation.diagnostic stream]⟩

/-- Parses a source. -/
def ofSource (source : Source) : Parsed := ofStream (.ofSource source)

end Parsed

end Oberon
