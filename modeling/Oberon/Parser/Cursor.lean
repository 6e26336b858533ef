import Oberon.Violation

/-!
# Cursors and parsers

A cursor stands before a token of a stream.  It holds the lexemes from there on without the end of
the file, the offset of that end, and the offset at which the last consumed token ended.

A parser moves the cursor, and either yields something or reports a violation.  A parser that fails
leaves the cursor at the token that did not fit.
-/

namespace Oberon

/-- A place in a stream of tokens: the lexemes that come next, without the end of the file, the
offset of the end of the file, and the offset at which the last consumed token ended. -/
structure Cursor where
  rest : List Lexeme
  stop : Nat
  reached : Nat
  deriving DecidableEq, Repr

namespace Cursor

/-- The beginning of a list of lexemes that the end of the file closes. -/
def ofLexemes (lexemes : List Lexeme) : Cursor :=
  let stop := lexemes.find? (·.symbol == .endOfFile)
  ⟨lexemes.takeWhile (·.symbol != .endOfFile), (stop.map (·.token.start)).getD 0, 0⟩

/-- The beginning of a stream. -/
def ofStream (stream : TokenStream) : Cursor := ofLexemes stream.lexemes

/-- The lexeme that comes next. -/
def next (cursor : Cursor) : Lexeme := cursor.rest.headD ⟨.endAt cursor.stop, ""⟩

/-- The token that comes next. -/
def token (cursor : Cursor) : Token := cursor.next.token

/-- The symbol that comes next. -/
def symbol (cursor : Cursor) : Symbol := cursor.token.symbol

/-- The offset at which a construct that begins here starts. -/
def start (cursor : Cursor) : Nat := cursor.token.start

/-- The span from an offset to the end of the last consumed token, empty if nothing was consumed
since. -/
def spanFrom (cursor : Cursor) (start : Nat) : Span := ⟨start, max cursor.reached start⟩

end Cursor

/-- A computation that moves a cursor and can fail. -/
abbrev Parser (α : Type) := EStateM Violation Cursor α

namespace Parser

/-- Consumes the next token if its symbol satisfies a test, and complains about it otherwise.  The
end of the file is never consumed. -/
def token (test : Symbol → Bool) (reason : Reason) : Parser Lexeme := fun cursor =>
  match cursor.rest with
  | [] => .error ⟨cursor.token, reason⟩ cursor
  | lexeme :: rest =>
    if test lexeme.symbol then .ok lexeme ⟨rest, cursor.stop, lexeme.token.stop⟩
    else .error ⟨cursor.token, reason⟩ cursor

/-- The symbol that comes next. -/
def peek : Parser Symbol := fun cursor => .ok cursor.symbol cursor

/-- Complains about the next token. -/
def fail {α : Type} (reason : Reason) : Parser α := fun cursor =>
  .error ⟨cursor.token, reason⟩ cursor

/-- Checks that all tokens have been consumed. -/
def finish : Parser Unit := fun cursor =>
  match cursor.rest with
  | [] => .ok () { cursor with reached := cursor.stop }
  | _ :: _ => .error ⟨cursor.token, .missing .endOfFile "end of input"⟩ cursor

/-- Repeats a step as long as it asks for it and has consumed a token, and joins what the steps
yield. -/
def iterate {α : Type} (step : Parser (List α × Bool)) : Parser (List α) := fun cursor =>
  match step cursor with
  | .error violation after => .error violation after
  | .ok (done, again) after =>
    if again = true ∧ after.rest.length < cursor.rest.length then
      match iterate step after with
      | .error violation last => .error violation last
      | .ok more last => .ok (done ++ more) last
    else
      .ok done after
termination_by cursor => cursor.rest.length

end Parser

end Oberon
