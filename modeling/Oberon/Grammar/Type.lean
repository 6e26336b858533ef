import Oberon.Grammar.Declaration

/-!
# The grammar of types

Arrays, records, pointers, procedures, objects, enumerations, cells, ports, words that stand for a
type, and names.  `OBJECT` alone is the generic object type; that nothing belongs to it is seen from
the symbol that follows.  The generic object can also be the type of the last field of a record, in
which case the record keeps its `END`.
-/

namespace Oberon.Grammar

open Production

/-- The lengths and the element type of an array. -/
def arrayRest : Production .parts :=
  all [
    .branch [.word .OF] .empty (sepBy (.mark .comma) (.part .item expression)),
    word .ofWord .OF "ARRAY type",
    .part .type typeSpec]

/-- An array with any number of lengths. -/
def arrayType : Production .construct :=
  node .arrayType [word .keyword .ARRAY "ARRAY type", arrayRest]

/-- The size of a mathematical array: a `*`, a `?` or an expression. -/
def mathArraySize : Production .construct :=
  choose [
    ([.mark .times], node .openSize [mark .token .times "ARRAY type"]),
    ([.mark .question], node .tensorSize [mark .token .question "ARRAY type"])]
    (node .lengthSize [.part .value expression])

/-- The sizes and the element type of a mathematical array. -/
def mathArrayRest : Production .parts :=
  all [
    mark .opening .leftBracket "ARRAY type",
    sepBy (.mark .comma) (.part .item mathArraySize),
    mark .closing .rightBracket "ARRAY type",
    word .ofWord .OF "ARRAY type",
    .part .type typeSpec]

/-- An array with sizes between brackets. -/
def mathArrayType : Production .construct :=
  node .mathArrayType [word .keyword .ARRAY "ARRAY type", mathArrayRest]

/-- An array of either sort, told apart by the bracket after the word. -/
def anyArrayType : Production .construct :=
  .assemble (.byRole .opening .mathArrayType .arrayType) (all [
    word .keyword .ARRAY "ARRAY type",
    .branch [.mark .leftBracket] mathArrayRest arrayRest])

/-- An optional base type in parentheses. -/
def optionalBase (rule : String) : Production .parts :=
  optional [.mark .leftParen] (all [
    mark .opening .leftParen rule,
    .part .base qualifiedIdentifier,
    mark .closing .rightParen rule])

/-- What a record has before its fields. -/
def recordHeading : Production .parts :=
  all [word .keyword .RECORD "RECORD type", optionalBase "RECORD type"]

/-- A field of a record.  The semicolon after it may be left out. -/
def recordField : Production .parts :=
  all [
    .part .item variableDeclaration,
    .branch [.mark .semicolon] (mark .semicolon .semicolon "RECORD type") (.gap .semicolon)]

/-- A record. -/
def recordType : Production .construct :=
  node .recordType [.reclaim
    (all [recordHeading, .many [.ident] recordField])
    (word .ending .END "RECORD type")]

/-- A pointer. -/
def pointerType : Production .construct :=
  node .pointerType [
    word .keyword .POINTER "POINTER type",
    optionalFlags,
    word .toWord .TO "POINTER type",
    .part .type typeSpec]

/-- A procedure type. -/
def procedureType : Production .construct :=
  node .procedureType [
    word .keyword .PROCEDURE "PROCEDURE type",
    optionalFlags,
    optionalParameters]

/-- An optional name after `END`. -/
def optionalClosingName (rule : String) : Production .parts :=
  optionalToken .closingName [.ident] rule

/-- The symbols that can follow the generic object type. -/
def genericFollow : List Symbol :=
  [.mark .semicolon, .mark .rightParen, .mark .comma, .endOfFile]

/-- An object type, generic or with a body. -/
def objectType : Production .construct :=
  node .objectType [
    word .keyword .OBJECT "OBJECT type",
    .branch genericFollow .empty (all [
      optionalFlags,
      optionalBase "OBJECT type",
      .part .declarations declarationSequence,
      optionalBody,
      word .ending .END "OBJECT type",
      optionalClosingName "OBJECT type"])]

/-- A name in an enumeration with an optional value. -/
def enumerationValue : Production .construct :=
  node .enumerationValue [
    .part .name identifierDefinition,
    optional [.mark .equal] (all [
      mark .equals .equal "enumeration value",
      .part .value expression])]

/-- An enumeration. -/
def enumerationType : Production .construct :=
  node .enumeration [
    word .keyword .ENUM "ENUM type",
    optionalBase "ENUM type",
    optional [.ident] (sepBy (.mark .comma) (.part .item enumerationValue)),
    word .ending .END "ENUM type"]

/-- A port type. -/
def portType : Production .construct :=
  node .portType [
    word .keyword .PORT "PORT type",
    oneOf .direction [.word .IN, .word .OUT] "PORT type",
    optional [.mark .leftParen] (all [
      mark .opening .leftParen "PORT type",
      .part .value expression,
      mark .closing .rightParen "PORT type"])]

/-- A port name with optional flags. -/
def portName : Production .construct :=
  node .portName [name .name "port declaration", optionalFlags]

/-- Ports and their type. -/
def portDeclaration : Production .construct :=
  node .portDeclaration [
    sepBy (.mark .comma) (.part .item portName),
    mark .colon .colon "port declaration",
    .part .type portType]

/-- The ports of a cell. -/
def portList : Production .construct :=
  node .portList [
    mark .opening .leftParen "port list",
    .branch [.mark .rightParen] .empty (sepBy (.mark .semicolon) (.part .item portDeclaration)),
    mark .closing .rightParen "port list"]

/-- A cell or a net of cells. -/
def cellType : Production .construct :=
  node .cellType [
    oneOf .keyword [.word .CELL, .word .CELLNET] "CELL type",
    optionalFlags,
    optional [.mark .leftParen] (.part .ports portList),
    optionalToken .semicolon [.mark .semicolon] "CELL type",
    importLists,
    .part .declarations declarationSequence,
    optionalBody,
    word .ending .END "CELL type",
    optionalClosingName "CELL type"]

/-- The symbols that start a type. -/
def typeStarts : List Symbol :=
  [.word .ARRAY, .word .RECORD, .word .POINTER, .word .PROCEDURE, .word .OBJECT, .word .ENUM,
    .word .CELL, .word .CELLNET, .word .PORT, .word .ANY, .word .ADDRESS, .word .SIZE, .ident]

/-- The words that stand for a type. -/
def builtinTypes : List Symbol := [.word .ANY, .word .ADDRESS, .word .SIZE]

/-- Any type, chosen by its first symbol. -/
def typeBody : Production .construct :=
  choose [
    ([.word .ARRAY], anyArrayType),
    ([.word .RECORD], recordType),
    ([.word .POINTER], pointerType),
    ([.word .PROCEDURE], procedureType),
    ([.word .OBJECT], objectType),
    ([.word .ENUM], enumerationType),
    ([.word .CELL, .word .CELLNET], cellType),
    ([.word .PORT], portType),
    (builtinTypes, node .builtinType [oneOf .token builtinTypes "type"]),
    ([.ident], qualifiedIdentifier)]
    (.fail (.noAlternative typeStarts "type"))

end Oberon.Grammar
