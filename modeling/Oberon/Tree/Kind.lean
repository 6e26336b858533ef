/-!
# Kinds, roles and families

The vocabulary of the tree.  Every node has a kind, which says what construct it is, and every part
of a node has a role, which says what it is to the construct.  `Kind.fields` lists the roles of each
kind in order, with how often a part of that role occurs.
-/

namespace Oberon

/-- What a construct is part of. -/
inductive Family where
  | expression
  | statement
  | block
  | assembler
  deriving DecidableEq, Repr, Inhabited

/-- What a part is to the construct it belongs to. -/
inductive Role where
  | root
  | lhs
  | operator
  | rhs
  | lower
  | upto
  | upper
  | byWord
  | step
  | star
  | operand
  | primary
  | selectors
  | flags
  | token
  | keyword
  | ofWord
  | opening
  | closing
  | inner
  | typeName
  | arguments
  | item
  | separator
  | firstComma
  | question
  | secondComma
  | name
  | value
  | condition
  | thenWord
  | body
  | elsif
  | elsePart
  | ending
  | doWord
  | untilWord
  | becomes
  | initial
  | toWord
  | limit
  | branch
  | colon
  | subject
  | leadingBar
  | trailingBar
  | label
  | designator
  | assembler
  | inWord
  | context
  | template
  | semicolon
  | imports
  | declarations
  | closingName
  | period
  | imported
  | terminator
  | equals
  | type
  | names
  | initializer
  | modifier
  | parameters
  | exportMark
  | statements
  | finallyWord
  | finalStatements
  | base
  | ports
  | direction
  | member
  deriving DecidableEq, Repr, Inhabited

/-- What construct a node is. -/
inductive Kind where
  | relation
  | range
  | sum
  | product
  | signed
  | designation
  | literal
  | atom
  | inquiry
  | parenthesis
  | allocation
  | set
  | arrayValue
  | expressionList
  | indexList
  | selectors
  | call
  | index
  | selection
  | dereference
  | flags
  | flag
  | statements
  | ifStatement
  | elsifPart
  | elsePart
  | whileStatement
  | repeatStatement
  | forStatement
  | loopStatement
  | exitStatement
  | returnStatement
  | awaitStatement
  | ignoreStatement
  | withStatement
  | withBranch
  | caseStatement
  | caseBranch
  | simpleStatement
  | inlineAssembler
  | assemblerBlock
  | statementBlock
  | emptyStatement
  | moduleUnit
  | templateParameters
  | templateParameter
  | importList
  | importItem
  | declarations
  | constantSection
  | constantDeclaration
  | typeSection
  | typeDeclaration
  | variableSection
  | variableDeclaration
  | variableNames
  | variableName
  | procedureDeclaration
  | operatorDeclaration
  | formalParameters
  | parameterGroup
  | parameter
  | body
  | arrayType
  | mathArrayType
  | openSize
  | tensorSize
  | lengthSize
  | recordType
  | pointerType
  | procedureType
  | objectType
  | enumeration
  | enumerationValue
  | cellType
  | portList
  | portDeclaration
  | portName
  | portType
  | builtinType
  | qualifiedIdentifier
  | identifierDefinition
  deriving DecidableEq, Repr, Inhabited

/-- How often a part occurs. -/
inductive Arity where
  | one
  | optional
  | many
  deriving DecidableEq, Repr, Inhabited

/-- A role of the parts of a construct and how often it occurs. -/
structure Field where
  role : Role
  arity : Arity
  deriving DecidableEq, Repr, Inhabited

namespace Role

/-- A part that is always there. -/
def once (role : Role) : Field := ⟨role, .one⟩

/-- A part that may be absent. -/
def maybe (role : Role) : Field := ⟨role, .optional⟩

/-- Parts of which there may be several. -/
def several (role : Role) : Field := ⟨role, .many⟩

end Role

namespace Kind

open Role

/-- The parts of each kind. -/
def fields : Kind → List Field
  | relation => [once .lhs, once .operator, once .rhs]
  | range => [maybe .lower, maybe .upto, maybe .upper, maybe .byWord, maybe .step, maybe .star]
  | sum => [once .lhs, once .operator, once .rhs]
  | product => [once .lhs, once .operator, once .rhs]
  | signed => [once .operator, once .operand]
  | designation => [once .primary, maybe .selectors, maybe .flags]
  | literal => [once .token]
  | atom => [once .token]
  | inquiry => [once .keyword, maybe .ofWord, maybe .operand]
  | parenthesis => [once .opening, once .inner, once .closing]
  | allocation => [once .keyword, once .typeName, once .opening, maybe .arguments, once .closing]
  | set => [once .opening, several .item, several .separator, once .closing]
  | arrayValue => [once .opening, once .inner, once .closing]
  | expressionList => [several .item, several .separator]
  | indexList => [maybe .lhs, maybe .firstComma, once .question, maybe .secondComma, maybe .rhs]
  | selectors => [several .item]
  | call => [once .opening, maybe .arguments, once .closing]
  | index => [once .opening, maybe .arguments, once .closing]
  | selection => [once .period, once .name]
  | dereference => [once .token]
  | flags => [once .opening, several .item, several .separator, once .closing]
  | flag => [once .name, maybe .opening, maybe .value, maybe .closing]
  | statements => [several .item, several .separator]
  | ifStatement =>
    [once .keyword, once .condition, once .thenWord, once .body, several .elsif, maybe .elsePart,
      once .ending]
  | elsifPart => [once .keyword, once .condition, once .thenWord, once .body]
  | elsePart => [once .keyword, once .body]
  | whileStatement => [once .keyword, once .condition, once .doWord, once .body, once .ending]
  | repeatStatement => [once .keyword, once .body, once .untilWord, once .condition]
  | forStatement =>
    [once .keyword, once .name, once .becomes, once .initial, once .toWord, once .limit,
      maybe .byWord, maybe .step, once .doWord, once .body, once .ending]
  | loopStatement => [once .keyword, once .body, once .ending]
  | exitStatement => [once .keyword]
  | returnStatement => [once .keyword, maybe .value]
  | awaitStatement => [once .keyword, once .condition]
  | ignoreStatement => [once .keyword, once .value]
  | withStatement =>
    [once .keyword, several .branch, several .separator, maybe .elsePart, once .ending]
  | withBranch => [once .name, once .colon, once .typeName, once .doWord, once .body]
  | caseStatement =>
    [once .keyword, once .subject, once .ofWord, maybe .leadingBar, several .branch,
      several .separator, maybe .trailingBar, maybe .elsePart, once .ending]
  | caseBranch => [several .label, several .separator, once .colon, once .body]
  | simpleStatement => [once .designator, maybe .operator, maybe .value]
  | inlineAssembler => [once .keyword, once .assembler, once .ending]
  | assemblerBlock => [once .token]
  | statementBlock => [once .keyword, maybe .flags, once .body, once .ending]
  | emptyStatement => []
  | moduleUnit =>
    [once .keyword, once .name, maybe .inWord, maybe .context, maybe .template, once .semicolon,
      several .imports, once .declarations, maybe .body, once .ending, once .closingName,
      once .period]
  | templateParameters => [once .opening, several .item, several .separator, once .closing]
  | templateParameter => [once .keyword, once .name]
  | importList => [once .keyword, several .item, several .separator, once .semicolon]
  | importItem =>
    [once .name, maybe .becomes, maybe .imported, maybe .opening, maybe .arguments, maybe .closing,
      maybe .inWord, maybe .context]
  | declarations => [several .item]
  | constantSection => [once .keyword, several .item, several .terminator]
  | constantDeclaration => [once .name, once .equals, once .value]
  | typeSection => [once .keyword, several .item, several .terminator]
  | typeDeclaration => [once .name, once .equals, once .type]
  | variableSection => [once .keyword, several .item, several .terminator]
  | variableDeclaration => [once .names, once .colon, once .type]
  | variableNames => [several .item, several .separator]
  | variableName => [once .name, maybe .flags, maybe .initializer, maybe .value]
  | procedureDeclaration =>
    [once .keyword, maybe .modifier, maybe .flags, once .name, maybe .parameters, once .semicolon,
      maybe .declarations, maybe .body, maybe .ending, maybe .closingName, maybe .terminator]
  | operatorDeclaration =>
    [once .keyword, maybe .flags, maybe .modifier, once .name, maybe .exportMark, once .parameters,
      once .semicolon, once .declarations, maybe .body, once .ending, once .closingName,
      maybe .terminator]
  | formalParameters =>
    [once .opening, several .item, several .separator, once .closing, maybe .colon, maybe .flags,
      maybe .type]
  | parameterGroup => [maybe .modifier, several .item, several .separator, once .colon, once .type]
  | parameter => [once .name, maybe .flags, maybe .equals, maybe .value]
  | body =>
    [once .keyword, maybe .flags, maybe .statements, maybe .finallyWord, maybe .finalStatements,
      maybe .assembler]
  | arrayType => [once .keyword, several .item, several .separator, once .ofWord, once .type]
  | mathArrayType =>
    [once .keyword, once .opening, several .item, several .separator, once .closing, once .ofWord,
      once .type]
  | openSize => [once .token]
  | tensorSize => [once .token]
  | lengthSize => [once .value]
  | recordType =>
    [once .keyword, maybe .opening, maybe .base, maybe .closing, several .item, several .semicolon,
      once .ending]
  | pointerType => [once .keyword, maybe .flags, once .toWord, once .type]
  | procedureType => [once .keyword, maybe .flags, maybe .parameters]
  | objectType =>
    [once .keyword, maybe .flags, maybe .opening, maybe .base, maybe .closing, maybe .declarations,
      maybe .body, maybe .ending, maybe .closingName]
  | enumeration =>
    [once .keyword, maybe .opening, maybe .base, maybe .closing, several .item, several .separator,
      once .ending]
  | enumerationValue => [once .name, maybe .equals, maybe .value]
  | cellType =>
    [once .keyword, maybe .flags, maybe .ports, maybe .semicolon, several .imports,
      once .declarations, maybe .body, once .ending, maybe .closingName]
  | portList => [once .opening, several .item, several .separator, once .closing]
  | portDeclaration => [several .item, several .separator, once .colon, once .type]
  | portName => [once .name, maybe .flags]
  | portType => [once .keyword, once .direction, maybe .opening, maybe .value, maybe .closing]
  | builtinType => [once .token]
  | qualifiedIdentifier => [once .name, maybe .period, maybe .member]
  | identifierDefinition => [once .name, maybe .exportMark]

/-- The family of each kind. -/
def family : Kind → Family
  | relation | range | sum | product | signed | designation | literal | atom | inquiry
  | parenthesis | allocation | set | arrayValue | expressionList | indexList | selectors | call
  | index | selection | dereference | flags | flag => .expression
  | statements | ifStatement | elsifPart | elsePart | whileStatement | repeatStatement
  | forStatement | loopStatement | exitStatement | returnStatement | awaitStatement
  | ignoreStatement | withStatement | withBranch | caseStatement | caseBranch | simpleStatement
  | inlineAssembler | statementBlock | emptyStatement => .statement
  | assemblerBlock => .assembler
  | _ => .block

/-- True of the sizes of a mathematical array, which are shown by their content alone. -/
def isSize : Kind → Bool
  | openSize | tensorSize | lengthSize => true
  | _ => false

end Kind

end Oberon
