import Oberon.Grammar.Expression

/-!
# The grammar of statements

A statement is empty if the next symbol can only follow a statement.  Structured statements close
themselves, most of them with `END`.  Assembler text is a single token, which the scanner delivers
after `CODE`.
-/

namespace Oberon.Grammar

open Production

/-- A statement, one level deeper. -/
def statement : Production .construct := .deeper .statement

/-- Statements separated by semicolons. -/
def statementSequence : Production .construct :=
  node .statements [sepBy (.mark .semicolon) (.part .item statement)]

/-- The symbols that can only follow a statement. -/
def statementFollow : List Symbol :=
  [.mark .semicolon, .word .END, .word .ELSE, .word .ELSIF, .word .UNTIL, .mark .bar,
    .word .FINALLY, .endOfFile]

/-- The statements between the parts of a structured statement. -/
def bodyStatements : Production .parts := .part .body statementSequence

/-- The optional `ELSE` part of a statement. -/
def optionalElse : Production .parts :=
  optional [.word .ELSE] (.part .elsePart (node .elsePart [
    word .keyword .ELSE "ELSE part",
    bodyStatements]))

/-- An `IF` statement. -/
def ifStatement : Production .construct :=
  node .ifStatement [
    word .keyword .IF "IF statement",
    .part .condition expression,
    word .thenWord .THEN "IF statement",
    bodyStatements,
    .many [.word .ELSIF] (.part .elsif (node .elsifPart [
      word .keyword .ELSIF "ELSIF part",
      .part .condition expression,
      word .thenWord .THEN "ELSIF part",
      bodyStatements])),
    optionalElse,
    word .ending .END "IF statement"]

/-- A `WHILE` statement. -/
def whileStatement : Production .construct :=
  node .whileStatement [
    word .keyword .WHILE "WHILE statement",
    .part .condition expression,
    word .doWord .DO "WHILE statement",
    bodyStatements,
    word .ending .END "WHILE statement"]

/-- A `REPEAT` statement. -/
def repeatStatement : Production .construct :=
  node .repeatStatement [
    word .keyword .REPEAT "REPEAT statement",
    bodyStatements,
    word .untilWord .UNTIL "REPEAT statement",
    .part .condition expression]

/-- A `FOR` statement. -/
def forStatement : Production .construct :=
  node .forStatement [
    word .keyword .FOR "FOR statement",
    name .name "FOR statement",
    mark .becomes .becomes "FOR statement",
    .part .initial expression,
    word .toWord .TO "FOR statement",
    .part .limit expression,
    optional [.word .BY] (all [word .byWord .BY "FOR statement", .part .step expression]),
    word .doWord .DO "FOR statement",
    bodyStatements,
    word .ending .END "FOR statement"]

/-- A `LOOP` statement. -/
def loopStatement : Production .construct :=
  node .loopStatement [
    word .keyword .LOOP "LOOP statement",
    bodyStatements,
    word .ending .END "LOOP statement"]

/-- A branch of a `WITH` statement. -/
def withBranch : Production .construct :=
  node .withBranch [
    name .name "WITH statement",
    mark .colon .colon "WITH statement",
    .part .typeName qualifiedIdentifier,
    word .doWord .DO "WITH statement",
    bodyStatements]

/-- A `WITH` statement. -/
def withStatement : Production .construct :=
  node .withStatement [
    word .keyword .WITH "WITH statement",
    sepBy (.mark .bar) (.part .branch withBranch),
    optionalElse,
    word .ending .END "WITH statement"]

/-- A branch of a `CASE` statement. -/
def caseBranch : Production .construct :=
  node .caseBranch [
    sepBy (.mark .comma) (.part .label rangeExpression),
    mark .colon .colon "CASE branch",
    bodyStatements]

/-- The symbols that end the branches of a `CASE` statement. -/
def caseFollow : List Symbol := [.word .END, .word .ELSE]

/-- A `CASE` statement.  A bar may also stand before the first and after the last branch. -/
def caseStatement : Production .construct :=
  node .caseStatement [
    word .keyword .CASE "CASE statement",
    .part .subject expression,
    word .ofWord .OF "CASE statement",
    optionalToken .leadingBar [.mark .bar] "CASE statement",
    .branch caseFollow .empty (all [
      .part .branch caseBranch,
      .tail (.mark .bar) .separator caseFollow .trailingBar .empty (.part .branch caseBranch)]),
    optionalElse,
    word .ending .END "CASE statement"]

/-- The symbols that turn a designator into an assignment or a port operation. -/
def statementOperators : List Symbol :=
  [.mark .becomes, .mark .exclamation, .mark .question, .mark .lessLess, .mark .greaterGreater]

/-- A call, an assignment or a port operation. -/
def simpleStatement : Production .construct :=
  node .simpleStatement [
    .part .designator unaryExpression,
    optional statementOperators (all [
      oneOf .operator statementOperators "statement",
      .part .value expression])]

/-- The text after `CODE`. -/
def assemblerBlock : Production .construct :=
  node .assemblerBlock [expect .token .assembler "CODE block"]

/-- A `CODE` statement. -/
def inlineAssembler : Production .construct :=
  node .inlineAssembler [
    word .keyword .CODE "CODE block",
    .part .assembler assemblerBlock,
    word .ending .END "CODE block"]

/-- A block of statements. -/
def statementBlock : Production .construct :=
  node .statementBlock [
    word .keyword .BEGIN "statement block",
    optionalFlags,
    bodyStatements,
    word .ending .END "statement block"]

/-- Any statement, chosen by its first symbol. -/
def statementBody : Production .construct :=
  choose [
    (statementFollow, node .emptyStatement []),
    ([.word .IF], ifStatement),
    ([.word .WHILE], whileStatement),
    ([.word .REPEAT], repeatStatement),
    ([.word .FOR], forStatement),
    ([.word .LOOP], loopStatement),
    ([.word .CASE], caseStatement),
    ([.word .WITH], withStatement),
    ([.word .CODE], inlineAssembler),
    ([.word .BEGIN], statementBlock),
    ([.word .EXIT], node .exitStatement [word .keyword .EXIT "EXIT statement"]),
    ([.word .RETURN], node .returnStatement [
      word .keyword .RETURN "RETURN statement",
      .branch statementFollow .empty (.part .value expression)]),
    ([.word .AWAIT], node .awaitStatement [
      word .keyword .AWAIT "AWAIT statement",
      .part .condition expression]),
    ([.word .IGNORE], node .ignoreStatement [
      word .keyword .IGNORE "IGNORE statement",
      .part .value expression])]
    simpleStatement

end Oberon.Grammar
