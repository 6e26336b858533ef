import Oberon.Grammar.Type

/-!
# The rules of the grammar

The constructs that can be parsed on their own, and the production of each.
-/

namespace Oberon

namespace Level

/-- What violations call the level. -/
def rule : Level → String
  | factor => "factor"
  | statement => "statement"
  | type => "type"
  | declarations => "declaration sequence"

/-- The constructs of a level. -/
def production : Level → Production .construct
  | factor => Grammar.factorBody
  | statement => Grammar.statementBody
  | type => Grammar.typeBody
  | declarations => Grammar.declarationsBody

end Level

/-- A construct that can be parsed on its own. -/
inductive Rule where
  | expression | rangeExpression | simpleExpression | term | factor | unaryExpression
  | primaryExpression | selectors | indexList | expressionList | array | set | flags | flag
  | statementSequence | statement | ifStatement | whileStatement | repeatStatement
  | forStatement | loopStatement | withStatement | withBranch | caseStatement | caseBranch
  | simpleStatement | inlineAssembler | assemblerBlock | statementBlock | moduleUnit
  | templateParameters | templateParameter | importList | importItem | declarationSequence
  | constantSection | constantDeclaration | typeSection | typeDeclaration | variableSection
  | variableDeclaration | variableNames | variableName | procedureDeclaration
  | operatorDeclaration | formalParameters | parameterGroup | parameter | body
  | identifierDefinition | qualifiedIdentifier | typeSpec | arrayType | mathArrayType
  | mathArraySize | recordType | pointerType | procedureType | objectType | enumerationType
  | enumerationValue | cellType | portList | portDeclaration | portType
  deriving DecidableEq, Repr, Inhabited

namespace Rule

/-- The production of each rule. -/
def production : Rule → Production .construct
  | expression => Grammar.expression
  | rangeExpression => Grammar.rangeExpression
  | simpleExpression => Grammar.simpleExpression
  | term => Grammar.term
  | factor => Grammar.factor
  | unaryExpression => Grammar.unaryExpression
  | primaryExpression => Grammar.primaryExpression
  | selectors => Grammar.selectors
  | indexList => Grammar.indexList
  | expressionList => Grammar.expressionList
  | array => Grammar.array
  | set => Grammar.set
  | flags => Grammar.flags
  | flag => Grammar.flag
  | statementSequence => Grammar.statementSequence
  | statement => Grammar.statement
  | ifStatement => Grammar.ifStatement
  | whileStatement => Grammar.whileStatement
  | repeatStatement => Grammar.repeatStatement
  | forStatement => Grammar.forStatement
  | loopStatement => Grammar.loopStatement
  | withStatement => Grammar.withStatement
  | withBranch => Grammar.withBranch
  | caseStatement => Grammar.caseStatement
  | caseBranch => Grammar.caseBranch
  | simpleStatement => Grammar.simpleStatement
  | inlineAssembler => Grammar.inlineAssembler
  | assemblerBlock => Grammar.assemblerBlock
  | statementBlock => Grammar.statementBlock
  | moduleUnit => Grammar.moduleUnit
  | templateParameters => Grammar.templateParameters
  | templateParameter => Grammar.templateParameter
  | importList => Grammar.importList
  | importItem => Grammar.importItem
  | declarationSequence => Grammar.declarationSequence
  | constantSection => Grammar.constantSection
  | constantDeclaration => Grammar.constantDeclaration
  | typeSection => Grammar.typeSection
  | typeDeclaration => Grammar.typeDeclaration
  | variableSection => Grammar.variableSection
  | variableDeclaration => Grammar.variableDeclaration
  | variableNames => Grammar.variableNames
  | variableName => Grammar.variableName
  | procedureDeclaration => Grammar.procedureDeclaration
  | operatorDeclaration => Grammar.operatorDeclaration
  | formalParameters => Grammar.formalParameters
  | parameterGroup => Grammar.parameterGroup
  | parameter => Grammar.parameter
  | body => Grammar.body
  | identifierDefinition => Grammar.identifierDefinition
  | qualifiedIdentifier => Grammar.qualifiedIdentifier
  | typeSpec => Grammar.typeSpec
  | arrayType => Grammar.arrayType
  | mathArrayType => Grammar.mathArrayType
  | mathArraySize => Grammar.mathArraySize
  | recordType => Grammar.recordType
  | pointerType => Grammar.pointerType
  | procedureType => Grammar.procedureType
  | objectType => Grammar.objectType
  | enumerationType => Grammar.enumerationType
  | enumerationValue => Grammar.enumerationValue
  | cellType => Grammar.cellType
  | portList => Grammar.portList
  | portDeclaration => Grammar.portDeclaration
  | portType => Grammar.portType

end Rule

end Oberon
