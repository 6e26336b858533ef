import Oberon.Grammar.Statement

/-!
# The grammar of declarations

Constants, types, variables, procedures and operators in any order, the parameters of procedures,
imports, and the module that holds them all.  A procedure marked with `^` is only announced: its
declaration ends after the heading.
-/

namespace Oberon.Grammar

open Production

/-- A type, one level deeper. -/
def typeSpec : Production .construct := .deeper .type

/-- A sequence of declarations, one level deeper. -/
def declarationSequence : Production .construct := .deeper .declarations

/-- A constant or type parameter of a module. -/
def templateParameter : Production .construct :=
  node .templateParameter [
    oneOf .keyword [.word .CONST, .word .TYPE] "template parameter",
    name .name "template parameter"]

/-- The parameters of a generic module. -/
def templateParameters : Production .construct :=
  node .templateParameters [
    mark .opening .leftParen "template parameters",
    sepBy (.mark .comma) (.part .item templateParameter),
    mark .closing .rightParen "template parameters"]

/-- An optional context after `IN`. -/
def optionalContext (rule : String) : Production .parts :=
  optional [.word .IN] (all [word .inWord .IN rule, name .context rule])

/-- An imported module, with an optional alias, arguments and context. -/
def importItem : Production .construct :=
  node .importItem [
    name .name "import",
    optional [.mark .becomes] (all [
      mark .becomes .becomes "import",
      name .imported "import"]),
    optional [.mark .leftParen] (all [
      mark .opening .leftParen "import",
      .part .arguments expressionList,
      mark .closing .rightParen "import"]),
    optionalContext "import"]

/-- A list of imports. -/
def importList : Production .construct :=
  node .importList [
    word .keyword .IMPORT "IMPORT list",
    sepBy (.mark .comma) (.part .item importItem),
    mark .semicolon .semicolon "IMPORT list"]

/-- Any number of import lists. -/
def importLists : Production .parts := .many [.word .IMPORT] (.part .imports importList)

/-- A constant and its value. -/
def constantDeclaration : Production .construct :=
  node .constantDeclaration [
    .part .name identifierDefinition,
    mark .equals .equal "constant declaration",
    .part .value expression]

/-- A type and its name. -/
def typeDeclaration : Production .construct :=
  node .typeDeclaration [
    .part .name identifierDefinition,
    mark .equals .equal "type declaration",
    .part .type typeSpec]

/-- A variable name with optional flags and either an initial value or an external symbol. -/
def variableName : Production .construct :=
  node .variableName [
    .part .name identifierDefinition,
    optionalFlags,
    choose [
      ([.mark .becomes], all [
        mark .initializer .becomes "variable",
        .part .value expression]),
      ([.word .EXTERN], all [
        word .initializer .EXTERN "EXTERN variable",
        .part .value (node .literal [expect .token .string "EXTERN variable"])])]
      .empty]

/-- Variable names separated by commas. -/
def variableNames : Production .construct :=
  node .variableNames [sepBy (.mark .comma) (.part .item variableName)]

/-- Variables and their type. -/
def variableDeclaration : Production .construct :=
  node .variableDeclaration [
    .part .names variableNames,
    mark .colon .colon "variable declaration",
    .part .type typeSpec]

/-- Declarations that follow a word, each with a semicolon after it. -/
def declarationSection (kind : Kind) (w : Word) (item : Production .construct) (rule : String) :
    Production .construct :=
  node kind [
    word .keyword w rule,
    .many [.ident] (all [.part .item item, mark .terminator .semicolon rule])]

/-- A section of constants. -/
def constantSection : Production .construct :=
  declarationSection .constantSection .CONST constantDeclaration "CONST section"

/-- A section of types. -/
def typeSection : Production .construct :=
  declarationSection .typeSection .TYPE typeDeclaration "TYPE section"

/-- A section of variables. -/
def variableSection : Production .construct :=
  declarationSection .variableSection .VAR variableDeclaration "VAR section"

/-- A parameter with optional flags and default value. -/
def parameter : Production .construct :=
  node .parameter [
    name .name "parameter declaration",
    optionalFlags,
    optional [.mark .equal] (all [
      mark .equals .equal "parameter declaration",
      .part .value expression])]

/-- Parameters and their type. -/
def parameterGroup : Production .construct :=
  node .parameterGroup [
    optionalToken .modifier [.word .VAR, .word .CONST] "parameter declaration",
    sepBy (.mark .comma) (.part .item parameter),
    mark .colon .colon "parameter declaration",
    .part .type typeSpec]

/-- Parameters in parentheses and an optional result type. -/
def formalParameters : Production .construct :=
  node .formalParameters [
    mark .opening .leftParen "formal parameters",
    .branch [.mark .rightParen] .empty (sepBy (.mark .semicolon) (.part .item parameterGroup)),
    mark .closing .rightParen "formal parameters",
    optional [.mark .colon] (all [
      mark .colon .colon "formal parameters",
      optionalFlags,
      .part .type typeSpec])]

/-- Parameters that are there if a parenthesis comes next. -/
def optionalParameters : Production .parts :=
  optional [.mark .leftParen] (.part .parameters formalParameters)

/-- The symbols that start a body. -/
def bodyStarts : List Symbol := [.word .BEGIN, .word .CODE]

/-- Statements with optional final statements, or assembler text. -/
def body : Production .construct :=
  choose [
    ([.word .BEGIN], node .body [
      word .keyword .BEGIN "body",
      optionalFlags,
      .part .statements statementSequence,
      optional [.word .FINALLY] (all [
        word .finallyWord .FINALLY "body",
        .part .finalStatements statementSequence])]),
    ([.word .CODE], node .body [
      word .keyword .CODE "body",
      .part .assembler assemblerBlock])]
    (.fail (.noAlternative bodyStarts "body"))

/-- A body that is there if the next symbol starts one. -/
def optionalBody : Production .parts := optional bodyStarts (.part .body body)

/-- What a procedure has after its modifiers, up to the semicolon. -/
def procedureHeading : Production .parts :=
  all [
    .part .name identifierDefinition,
    optionalParameters,
    mark .semicolon .semicolon "PROCEDURE"]

/-- The marks that modify a procedure with a body. -/
def procedureMarks : List Symbol := [.mark .ampersand, .mark .tilde, .mark .minus]

/-- A procedure. -/
def procedureDeclaration : Production .construct :=
  node .procedureDeclaration [
    word .keyword .PROCEDURE "PROCEDURE",
    .branch [.mark .arrow]
      (all [mark .modifier .arrow "PROCEDURE", procedureHeading])
      (all [
        choose [
          (procedureMarks, oneOf .modifier procedureMarks "PROCEDURE"),
          ([.mark .leftBrace], all [
            .part .flags flags,
            optionalToken .modifier [.mark .minus] "PROCEDURE"])]
          .empty,
        procedureHeading,
        .part .declarations declarationSequence,
        optionalBody,
        word .ending .END "PROCEDURE",
        name .closingName "PROCEDURE",
        optionalToken .terminator [.mark .semicolon] "PROCEDURE"])]

/-- An operator, which is named by a string. -/
def operatorDeclaration : Production .construct :=
  node .operatorDeclaration [
    word .keyword .OPERATOR "OPERATOR",
    optionalFlags,
    optionalToken .modifier [.mark .minus] "OPERATOR",
    expect .name .string "OPERATOR",
    optionalToken .exportMark [.mark .times, .mark .minus] "OPERATOR",
    .part .parameters formalParameters,
    mark .semicolon .semicolon "OPERATOR",
    .part .declarations declarationSequence,
    optionalBody,
    word .ending .END "OPERATOR",
    expect .closingName .string "OPERATOR",
    optionalToken .terminator [.mark .semicolon] "OPERATOR"]

/-- The symbols that start a declaration. -/
def declarationStarts : List Symbol :=
  [.word .CONST, .word .TYPE, .word .VAR, .word .PROCEDURE, .word .OPERATOR]

/-- Declarations in any order. -/
def declarationsBody : Production .construct :=
  node .declarations [
    .many declarationStarts (.part .item (choose [
      ([.word .CONST], constantSection),
      ([.word .TYPE], typeSection),
      ([.word .VAR], variableSection),
      ([.word .PROCEDURE], procedureDeclaration)]
      operatorDeclaration))]

/-- A module. -/
def moduleUnit : Production .construct :=
  node .moduleUnit [
    word .keyword .MODULE "MODULE",
    name .name "MODULE",
    optionalContext "MODULE",
    optional [.mark .leftParen] (.part .template templateParameters),
    mark .semicolon .semicolon "MODULE",
    importLists,
    .part .declarations declarationSequence,
    optionalBody,
    word .ending .END "MODULE",
    name .closingName "MODULE",
    mark .period .period "MODULE"]

end Oberon.Grammar
