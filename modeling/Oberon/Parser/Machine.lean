import Oberon.Grammar.Assembly
import Oberon.Parser.Cursor

/-!
# Running productions

`Production.run` turns a production into a parser, given parsers for the constructs one level
deeper.  It looks at one token at a time and never goes back.
-/

namespace Oberon

namespace Yield

/-- What a production of each sort yields. -/
@[reducible] def Output : Yield → Type
  | construct => Tree
  | parts => List Tree

end Yield

namespace Production

/-- Parses according to a production. -/
def run (below : Level → Parser Tree) : {yield : Yield} → Production yield → Parser yield.Output
  | _, .empty => pure []
  | _, .token role symbols reason => return [.leaf role (← Parser.token (· ∈ symbols) reason)]
  | _, .gap role => pure [.missing role]
  | _, .fail reason => Parser.fail reason
  | _, .seq first second => return (← first.run below) ++ (← second.run below)
  | _, .branch starts first second => do
    if (← Parser.peek) ∈ starts then first.run below else second.run below
  | _, .many starts item =>
    Parser.iterate do
      if (← Parser.peek) ∈ starts then return (← item.run below, true) else return ([], false)
  | _, .tail separator role stops exitRole exit item =>
    Parser.iterate do
      if (← Parser.peek) = separator then
        let lexeme ← Parser.token (· = separator) (.missing separator "list")
        if (← Parser.peek) ∈ stops then
          return (.leaf exitRole lexeme :: (← exit.run below), false)
        else
          return (.leaf role lexeme :: (← item.run below), true)
      else
        return ([], false)
  | _, .part role construct => return [(← construct.run below).withRole role]
  | _, .assemble assembly parts => do
    let start := (← get).start
    let trees ← parts.run below
    return .assemble assembly ((← get).spanFrom start) trees
  | _, .deeper level => below level
  | _, .reclaim body closing => do
    let trees ← body.run below
    match if (← Parser.peek) = .word .END then none else Tree.reclaimEnd? trees with
    | some trees => return trees
    | none => return trees ++ (← closing.run below)

end Production

end Oberon
