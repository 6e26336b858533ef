/-!
# Symbols of Active Oberon

A symbol is the class of a token: one of the reserved words, one of the punctuation marks, one of
the literal classes whose text matters, raw assembler text, or the end of the file.

Words and marks are told apart by their spelling alone.  `Word.ofSpelling?` looks a word up and
`Mark.longest?` finds the longest mark at the head of a text.  The operator classes of the
expression grammar are given as lists, so that they can be searched and compared.
-/

namespace Oberon

/-- A reserved word, named by its spelling. -/
inductive Word where
  | AWAIT | BEGIN | BY | CONST | CASE | CELL | CELLNET | CODE | DEFINITION | DO | DIV | END
  | ENUM | ELSE | ELSIF | EXIT | EXTERN | FALSE | FOR | FINALLY | IF | IGNORE | IMAG | IN | IS
  | IMPORT | LOOP | MODULE | MOD | NIL | OF | OR | OUT | OPERATOR | PROCEDURE | PORT | REPEAT
  | RETURN | SELF | NEW | RESULT | THEN | TRUE | TO | TYPE | UNTIL | VAR | WHILE | WITH | ANY
  | ARRAY | OBJECT | POINTER | RECORD | ADDRESS | SIZE | ALIAS
  deriving DecidableEq, Repr, Inhabited

namespace Word

/-- How the word reads in source code. -/
def spelling : Word → String
  | .AWAIT => "AWAIT"
  | .BEGIN => "BEGIN"
  | .BY => "BY"
  | .CONST => "CONST"
  | .CASE => "CASE"
  | .CELL => "CELL"
  | .CELLNET => "CELLNET"
  | .CODE => "CODE"
  | .DEFINITION => "DEFINITION"
  | .DO => "DO"
  | .DIV => "DIV"
  | .END => "END"
  | .ENUM => "ENUM"
  | .ELSE => "ELSE"
  | .ELSIF => "ELSIF"
  | .EXIT => "EXIT"
  | .EXTERN => "EXTERN"
  | .FALSE => "FALSE"
  | .FOR => "FOR"
  | .FINALLY => "FINALLY"
  | .IF => "IF"
  | .IGNORE => "IGNORE"
  | .IMAG => "IMAG"
  | .IN => "IN"
  | .IS => "IS"
  | .IMPORT => "IMPORT"
  | .LOOP => "LOOP"
  | .MODULE => "MODULE"
  | .MOD => "MOD"
  | .NIL => "NIL"
  | .OF => "OF"
  | .OR => "OR"
  | .OUT => "OUT"
  | .OPERATOR => "OPERATOR"
  | .PROCEDURE => "PROCEDURE"
  | .PORT => "PORT"
  | .REPEAT => "REPEAT"
  | .RETURN => "RETURN"
  | .SELF => "SELF"
  | .NEW => "NEW"
  | .RESULT => "RESULT"
  | .THEN => "THEN"
  | .TRUE => "TRUE"
  | .TO => "TO"
  | .TYPE => "TYPE"
  | .UNTIL => "UNTIL"
  | .VAR => "VAR"
  | .WHILE => "WHILE"
  | .WITH => "WITH"
  | .ANY => "ANY"
  | .ARRAY => "ARRAY"
  | .OBJECT => "OBJECT"
  | .POINTER => "POINTER"
  | .RECORD => "RECORD"
  | .ADDRESS => "ADDRESS"
  | .SIZE => "SIZE"
  | .ALIAS => "ALIAS"

/-- All reserved words. -/
def all : List Word :=
  [.AWAIT, .BEGIN, .BY, .CONST, .CASE, .CELL, .CELLNET, .CODE, .DEFINITION, .DO, .DIV, .END,
  .ENUM, .ELSE, .ELSIF, .EXIT, .EXTERN, .FALSE, .FOR, .FINALLY, .IF, .IGNORE, .IMAG, .IN, .IS,
  .IMPORT, .LOOP, .MODULE, .MOD, .NIL, .OF, .OR, .OUT, .OPERATOR, .PROCEDURE, .PORT, .REPEAT,
  .RETURN, .SELF, .NEW, .RESULT, .THEN, .TRUE, .TO, .TYPE, .UNTIL, .VAR, .WHILE, .WITH, .ANY,
  .ARRAY, .OBJECT, .POINTER, .RECORD, .ADDRESS, .SIZE, .ALIAS]

/-- The reserved word with exactly this spelling, upper case included. -/
def ofSpelling? (text : String) : Option Word :=
  all.find? (·.spelling == text)

end Word

/-- A punctuation mark or operator, longer spellings before the ones they begin with. -/
inductive Mark where
  | lessLessQuestion | greaterGreaterQuestion | dotGreaterEqual | dotLessEqual | timesTimes
  | plusTimes | upto | dotTimes | dotSlash | dotEqual | dotNotEqual | dotGreater | dotLess
  | becomes | lessEqual | greaterEqual | questions | exclamations | lessLess | greaterGreater
  | notEqual | ampersand | leftParen | rightParen | times | plus | comma | minus | period
  | slash | colon | semicolon | less | equal | greater | leftBracket | rightBracket | arrow
  | leftBrace | bar | rightBrace | tilde | backslash | backtick | question | exclamation
  deriving DecidableEq, Repr, Inhabited

namespace Mark

/-- How the mark reads in source code. -/
def spelling : Mark → String
  | .lessLessQuestion => "<<?"
  | .greaterGreaterQuestion => ">>?"
  | .dotGreaterEqual => ".>="
  | .dotLessEqual => ".<="
  | .timesTimes => "**"
  | .plusTimes => "+*"
  | .upto => ".."
  | .dotTimes => ".*"
  | .dotSlash => "./"
  | .dotEqual => ".="
  | .dotNotEqual => ".#"
  | .dotGreater => ".>"
  | .dotLess => ".<"
  | .becomes => ":="
  | .lessEqual => "<="
  | .greaterEqual => ">="
  | .questions => "??"
  | .exclamations => "!!"
  | .lessLess => "<<"
  | .greaterGreater => ">>"
  | .notEqual => "#"
  | .ampersand => "&"
  | .leftParen => "("
  | .rightParen => ")"
  | .times => "*"
  | .plus => "+"
  | .comma => ","
  | .minus => "-"
  | .period => "."
  | .slash => "/"
  | .colon => ":"
  | .semicolon => ";"
  | .less => "<"
  | .equal => "="
  | .greater => ">"
  | .leftBracket => "["
  | .rightBracket => "]"
  | .arrow => "^"
  | .leftBrace => "\x7b"
  | .bar => "|"
  | .rightBrace => "\x7d"
  | .tilde => "~"
  | .backslash => "\\"
  | .backtick => "`"
  | .question => "?"
  | .exclamation => "!"

/-- All marks, every mark before those that its spelling begins with. -/
def all : List Mark :=
  [.lessLessQuestion, .greaterGreaterQuestion, .dotGreaterEqual, .dotLessEqual, .timesTimes,
  .plusTimes, .upto, .dotTimes, .dotSlash, .dotEqual, .dotNotEqual, .dotGreater, .dotLess,
  .becomes, .lessEqual, .greaterEqual, .questions, .exclamations, .lessLess, .greaterGreater,
  .notEqual, .ampersand, .leftParen, .rightParen, .times, .plus, .comma, .minus, .period,
  .slash, .colon, .semicolon, .less, .equal, .greater, .leftBracket, .rightBracket, .arrow,
  .leftBrace, .bar, .rightBrace, .tilde, .backslash, .backtick, .question, .exclamation]

/-- The longest mark that the text starts with. -/
def longest? (text : List Char) : Option Mark :=
  all.find? (·.spelling.toList.isPrefixOf text)

end Mark

/-- The class of a token.  The end of the file also stands where scanning gave up, and assembler
text is what stands between `CODE` and its `END`. -/
inductive Symbol where
  | endOfFile
  | word (w : Word)
  | mark (m : Mark)
  | ident
  | integer
  | real
  | string
  | character
  | assembler
  deriving DecidableEq, Repr, Inhabited

namespace Symbol

/-- True of the symbols whose tokens carry their text. -/
def hasText : Symbol → Bool
  | ident | integer | real | string | character | assembler => true
  | endOfFile | word _ | mark _ => false

/-- How the symbol reads in source code, or what it is called if its text varies. -/
def reading : Symbol → String
  | endOfFile => "end of file"
  | word w => w.spelling
  | mark m => m.spelling
  | ident => "identifier"
  | integer => "integer literal"
  | real => "real literal"
  | string => "string literal"
  | character => "character literal"
  | assembler => "inline assembler"

/-- The symbol as messages name it: words and marks stand between quotes. -/
def display : Symbol → String
  | word w => "'" ++ w.spelling ++ "'"
  | mark m => "'" ++ m.spelling ++ "'"
  | symbol => symbol.reading

/-- The relational operators, of which an expression has at most one. -/
def relations : List Symbol :=
  [mark .equal, mark .notEqual, mark .less, mark .lessEqual, mark .greater, mark .greaterEqual,
    word .IN, word .IS, mark .dotEqual, mark .dotNotEqual, mark .dotLess, mark .dotLessEqual,
    mark .dotGreater, mark .dotGreaterEqual, mark .questions, mark .exclamations,
    mark .lessLessQuestion, mark .greaterGreaterQuestion]

/-- The operators that join the terms of a simple expression. -/
def addOperators : List Symbol :=
  [mark .plus, mark .minus, word .OR]

/-- The operators that join the factors of a term. -/
def mulOperators : List Symbol :=
  [mark .times, mark .slash, word .DIV, word .MOD, mark .ampersand, mark .dotTimes, mark .dotSlash,
    mark .backslash, mark .timesTimes, mark .plusTimes]

/-- True of the relational operators. -/
def isRelation (symbol : Symbol) : Bool := relations.contains symbol

/-- True of the operators that join terms. -/
def isAddOperator (symbol : Symbol) : Bool := addOperators.contains symbol

/-- True of the operators that join factors. -/
def isMulOperator (symbol : Symbol) : Bool := mulOperators.contains symbol

end Symbol

end Oberon
