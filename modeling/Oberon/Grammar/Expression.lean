import Oberon.Grammar.Production

/-!
# The grammar of expressions

From loose to tight: a relation of two ranges, a range of simple expressions, sums of terms, terms
of factors, and factors, which are designators with an optional sign in front.  Relations do not
chain, and a range, a list or a designator without more than one part is that part.
-/

namespace Oberon.Grammar

open Production

/-- An identifier with an optional export mark. -/
def identifierDefinition : Production .construct :=
  node .identifierDefinition [
    name .name "identifier definition",
    optionalToken .exportMark [.mark .times, .mark .minus] "identifier definition"]

/-- An identifier, or two with a period between them. -/
def qualifiedIdentifier : Production .construct :=
  node .qualifiedIdentifier [
    name .name "qualified identifier",
    optional [.mark .period] (all [
      mark .period .period "qualified identifier",
      name .member "qualified identifier"])]

/-- An operand, one level deeper. -/
def factor : Production .construct := .deeper .factor

/-- Factors and the operators between them. -/
def term : Production .construct :=
  .assemble (.chain .product) (all [
    .part .item factor,
    .many Symbol.mulOperators (all [
      oneOf .operator Symbol.mulOperators "term",
      .part .item factor])])

/-- Terms and the operators between them. -/
def simpleExpression : Production .construct :=
  .assemble (.chain .sum) (all [
    .part .item term,
    .many Symbol.addOperators (all [
      oneOf .operator Symbol.addOperators "simple expression",
      .part .item term])])

/-- The symbols that cannot start the upper bound of a range, so that the range ends before them. -/
def rangeFollow : List Symbol :=
  Symbol.relations ++
    [.mark .semicolon, .word .BEGIN, .word .DO, .word .BY, .mark .rightBracket, .mark .rightParen,
      .mark .rightBrace, .mark .comma, .mark .colon, .mark .bar, .word .OF, .word .THEN, .word .TO,
      .word .END, .word .ELSE, .word .ELSIF, .word .UNTIL, .endOfFile]

/-- What follows the lower bound of a range. -/
def rangeRest : Production .parts :=
  all [
    mark .upto .upto "range",
    .branch rangeFollow .empty (.part .upper simpleExpression),
    optional [.word .BY] (all [word .byWord .BY "range", .part .step simpleExpression])]

/-- A lone `*`, or bounds of which both may be absent, or a simple expression. -/
def rangeExpression : Production .construct :=
  .assemble (.unlessSingle .range) (choose [
    ([.mark .times], mark .star .times "range"),
    ([.mark .upto], rangeRest)]
    (all [.part .lower simpleExpression, optional [.mark .upto] rangeRest]))

/-- One range, or two with a relational operator between them. -/
def expression : Production .construct :=
  .assemble (.unlessSingle .relation) (all [
    .part .lhs rangeExpression,
    optional Symbol.relations (all [
      oneOf .operator Symbol.relations "expression",
      .part .rhs rangeExpression])])

/-- One or more expressions separated by commas. -/
def expressionList : Production .construct :=
  .assemble (.unlessSingle .expressionList) (sepBy (.mark .comma) (.part .item expression))

/-- What follows the `?` of an index list. -/
def indexListRest : Production .parts :=
  optional [.mark .comma] (all [
    mark .secondComma .comma "index list",
    .part .rhs expressionList])

/-- Expressions separated by commas, with at most one `?` among them. -/
def indexList : Production .construct :=
  .assemble .indexList (.branch [.mark .question]
    (all [mark .question .question "index list", indexListRest])
    (all [
      .part .item expression,
      .tail (.mark .comma) .separator [.mark .question] .firstComma
        (all [mark .question .question "index list", indexListRest])
        (.part .item expression)]))

/-- A list of expressions between brackets. -/
def array : Production .construct :=
  node .arrayValue [
    mark .opening .leftBracket "array",
    .part .inner expressionList,
    mark .closing .rightBracket "array"]

/-- Items separated by commas between braces. -/
def braced (kind : Kind) (item : Production .construct) (rule : String) : Production .construct :=
  node kind [
    mark .opening .leftBrace rule,
    .branch [.mark .rightBrace] .empty (sepBy (.mark .comma) (.part .item item)),
    mark .closing .rightBrace rule]

/-- A set of ranges. -/
def set : Production .construct := braced .set rangeExpression "set"

/-- A name with an optional value, in parentheses or after `=`. -/
def flag : Production .construct :=
  node .flag [
    name .name "flag",
    choose [
      ([.mark .leftParen], all [
        mark .opening .leftParen "flag",
        .part .value expression,
        mark .closing .rightParen "flag"]),
      ([.mark .equal], all [mark .opening .equal "flag", .part .value expression])]
      .empty]

/-- Flags between braces. -/
def flags : Production .construct := braced .flags flag "flags"

/-- Flags that are there if a brace comes next. -/
def optionalFlags : Production .parts := optional [.mark .leftBrace] (.part .flags flags)

/-- The symbols that start a selector. -/
def selectorStarts : List Symbol :=
  [.mark .leftParen, .mark .period, .mark .leftBracket, .mark .arrow, .mark .backtick]

/-- A call, an index, a selection, or a dereference, which also stands for a transposition. -/
def selector : Production .construct :=
  choose [
    ([.mark .leftParen], node .call [
      mark .opening .leftParen "call",
      .branch [.mark .rightParen] .empty (.part .arguments expressionList),
      mark .closing .rightParen "call"]),
    ([.mark .leftBracket], node .index [
      mark .opening .leftBracket "index",
      .branch [.mark .rightBracket] .empty (.part .arguments indexList),
      mark .closing .rightBracket "index"]),
    ([.mark .period], node .selection [
      mark .period .period "field selector",
      name .name "field selector"])]
    (node .dereference [oneOf .token [.mark .arrow, .mark .backtick] "designator"])

/-- Any number of selectors. -/
def selectors : Production .construct :=
  node .selectors [.many selectorStarts (.part .item selector)]

/-- The symbols of literals. -/
def literals : List Symbol := [.ident, .integer, .real, .string, .character]

/-- The words that stand for a value. -/
def atoms : List Symbol :=
  [.word .NIL, .word .IMAG, .word .TRUE, .word .FALSE, .word .SELF, .word .RESULT]

/-- A literal, a set, an array, a word that stands for a value, an inquiry about an operand, an
allocation, or an expression in parentheses.  `NEW` directly before a parenthesis is a name. -/
def primaryExpression : Production .construct :=
  choose [
    (literals, node .literal [oneOf .token literals "literal"]),
    ([.mark .leftBrace], set),
    ([.mark .leftBracket], array),
    (atoms, node .atom [oneOf .token atoms "atom"]),
    ([.word .ADDRESS, .word .SIZE], node .inquiry [
      oneOf .keyword [.word .ADDRESS, .word .SIZE] "inquiry",
      optional [.word .OF] (all [word .ofWord .OF "inquiry", .part .operand factor])]),
    ([.word .ALIAS], node .inquiry [
      word .keyword .ALIAS "ALIAS OF expression",
      word .ofWord .OF "ALIAS OF expression",
      .part .operand factor]),
    ([.word .NEW], .assemble .allocation (all [
      word .keyword .NEW "NEW expression",
      .branch [.mark .leftParen] .empty (all [
        .part .typeName qualifiedIdentifier,
        mark .opening .leftParen "NEW expression",
        .branch [.mark .rightParen] .empty (.part .arguments expressionList),
        mark .closing .rightParen "NEW expression"])])),
    ([.mark .leftParen], node .parenthesis [
      mark .opening .leftParen "parenthesized expression",
      .part .inner expression,
      mark .closing .rightParen "parenthesized expression"])]
    (.fail (.noOperand "primary expression"))

/-- A primary expression with optional selectors and flags. -/
def unaryExpression : Production .construct :=
  .assemble (.unlessSingle .designation) (all [
    .part .primary primaryExpression,
    optional selectorStarts (.part .selectors selectors),
    optionalFlags])

/-- The operators that stand before a factor. -/
def signs : List Symbol := [.mark .tilde, .mark .plus, .mark .minus]

/-- A factor after a sign, or a designator. -/
def factorBody : Production .construct :=
  .branch signs (node .signed [oneOf .operator signs "factor", .part .operand factor])
    unaryExpression

end Oberon.Grammar
