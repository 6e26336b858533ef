import Oberon.Symbol

/-!
# The language of expressions

The grammar of expressions in extended Backus-Naur form, as a table of definitions, and the words
that can be derived from it.  Nothing here says how a word is found: alternatives are not ordered,
and a list may end anywhere.

`Ebnf.Derives.starts` says by which symbols the words of a form can start.
-/

namespace Oberon

/-- The names that the grammar defines. -/
inductive Nonterminal where
  | expression | range | simple | term | factor | unary | primary | call | operation | indexList
  | expressionList | array | set | flags | flag | qualified
  deriving DecidableEq, Repr

/-- A form on the right side of a definition. -/
inductive Ebnf where
  | nothing
  | symbols (alternatives : List Symbol)
  | rule (name : Nonterminal)
  | seq (first second : Ebnf)
  | alt (first second : Ebnf)
  | repeated (item : Ebnf)
  deriving DecidableEq, Repr

namespace Ebnf

def mark (m : Mark) : Ebnf := symbols [.mark m]

def word (w : Word) : Ebnf := symbols [.word w]

def optional (form : Ebnf) : Ebnf := alt form nothing

def all (forms : List Ebnf) : Ebnf := forms.foldr seq nothing

/-- One or more items with commas between them. -/
def commaSeparated (item : Ebnf) : Ebnf := seq item (repeated (seq (mark .comma) item))

end Ebnf

open Ebnf in
/-- The definition of each name. -/
def Nonterminal.definition : Nonterminal → Ebnf
  | expression => all [rule range, optional (all [symbols Symbol.relations, rule range])]
  | range =>
    alt (mark .times)
      (alt (rule simple)
        (all [optional (rule simple), mark .upto, optional (rule simple),
          optional (all [word .BY, rule simple])]))
  | simple => all [rule term, repeated (all [symbols Symbol.addOperators, rule term])]
  | term => all [rule factor, repeated (all [symbols Symbol.mulOperators, rule factor])]
  | factor =>
    alt (all [symbols [.mark .tilde, .mark .plus, .mark .minus], rule factor]) (rule unary)
  | unary =>
    -- directly before a parenthesis, `NEW` is a name
    alt (all [rule primary, repeated (rule operation), optional (rule flags)])
      (all [word .NEW, rule call, repeated (rule operation), optional (rule flags)])
  | primary =>
    alt (symbols [.ident, .integer, .real, .string, .character])
      (alt (rule set)
        (alt (rule array)
          (alt (symbols [.word .NIL, .word .IMAG, .word .TRUE, .word .FALSE, .word .SELF,
              .word .RESULT])
            (alt (all [symbols [.word .ADDRESS, .word .SIZE],
                optional (all [word .OF, rule factor])])
              (alt (all [word .ALIAS, word .OF, rule factor])
                (alt (all [word .NEW, rule qualified, rule call])
                  (all [mark .leftParen, rule expression, mark .rightParen])))))))
  | call => all [mark .leftParen, optional (rule expressionList), mark .rightParen]
  | operation =>
    alt (rule call)
      (alt (all [mark .leftBracket, optional (rule indexList), mark .rightBracket])
        (alt (all [mark .period, symbols [.ident]]) (symbols [.mark .arrow, .mark .backtick])))
  | indexList =>
    alt (all [mark .question, optional (all [mark .comma, rule expressionList])])
      (all [rule expressionList, optional (all [mark .comma, mark .question,
        optional (all [mark .comma, rule expressionList])])])
  | expressionList => commaSeparated (rule expression)
  | array => all [mark .leftBracket, rule expressionList, mark .rightBracket]
  | set => all [mark .leftBrace, optional (commaSeparated (rule range)), mark .rightBrace]
  | flags => all [mark .leftBrace, optional (commaSeparated (rule flag)), mark .rightBrace]
  | flag =>
    all [symbols [.ident],
      optional (alt (all [mark .leftParen, rule expression, mark .rightParen])
        (all [mark .equal, rule expression]))]
  | qualified => all [symbols [.ident], optional (all [mark .period, symbols [.ident]])]

namespace Ebnf

/-- The words of a form. -/
inductive Derives : Ebnf → List Symbol → Prop
  | nothing : Derives .nothing []
  | symbols
      {alternatives : List Symbol}
      {symbol : Symbol}
      (member : symbol ∈ alternatives) :
      Derives (.symbols alternatives) [symbol]
  | rule
      {name : Nonterminal}
      {word : List Symbol}
      (inner : Derives name.definition word) :
      Derives (.rule name) word
  | seq
      {first second : Ebnf}
      {front back : List Symbol}
      (left : Derives first front)
      (right : Derives second back) :
      Derives (.seq first second) (front ++ back)
  | left
      {first second : Ebnf}
      {word : List Symbol}
      (inner : Derives first word) :
      Derives (.alt first second) word
  | right
      {first second : Ebnf}
      {word : List Symbol}
      (inner : Derives second word) :
      Derives (.alt first second) word
  | stop
      {item : Ebnf} :
      Derives (.repeated item) []
  | more
      {item : Ebnf}
      {front back : List Symbol}
      (head : Derives item front)
      (others : Derives (.repeated item) back) :
      Derives (.repeated item) (front ++ back)

section Derives

variable
  {first second item : Ebnf}
  {word : List Symbol}

@[simp] theorem derives_nothing_iff : Derives .nothing word ↔ word = [] := by
  constructor
  · rintro ⟨⟩
    rfl
  · rintro rfl
    exact .nothing

@[simp] theorem derives_symbols_iff
    {alternatives : List Symbol} :
    Derives (.symbols alternatives) word ↔ ∃ symbol ∈ alternatives, word = [symbol] := by
  constructor
  · rintro ⟨⟩
    exact ⟨_, ‹_›, rfl⟩
  · rintro ⟨symbol, member, rfl⟩
    exact .symbols member

@[simp] theorem derives_seq_iff :
    Derives (.seq first second) word ↔
      ∃ front back, word = front ++ back ∧ Derives first front ∧ Derives second back := by
  constructor
  · rintro ⟨⟩
    exact ⟨_, _, rfl, ‹_›, ‹_›⟩
  · rintro ⟨front, back, rfl, left, right⟩
    exact .seq left right

theorem derives_symbol_seq_iff
    {symbol : Symbol} :
    Derives (.seq (.symbols [symbol]) second) word ↔
      ∃ more, word = symbol :: more ∧ Derives second more := by
  constructor
  · intro h
    obtain ⟨front, more, rfl, single, derived⟩ := derives_seq_iff.mp h
    obtain ⟨_, member, rfl⟩ := derives_symbols_iff.mp single
    obtain rfl := List.mem_singleton.mp member
    exact ⟨more, rfl, derived⟩
  · rintro ⟨more, rfl, derived⟩
    exact .seq (.symbols List.mem_cons_self) derived

@[simp] theorem derives_alt_iff :
    Derives (.alt first second) word ↔ Derives first word ∨ Derives second word := by
  constructor
  · intro h
    cases h with
    | left inner => exact .inl inner
    | right inner => exact .inr inner
  · rintro (inner | inner)
    · exact .left inner
    · exact .right inner

theorem derives_rule_iff
    {name : Nonterminal} :
    Derives (.rule name) word ↔ Derives name.definition word := by
  constructor
  · rintro ⟨⟩
    assumption
  · exact .rule

/-- Induction over the items of a list. -/
@[elab_as_elim]
theorem repeated_induction
    {motive : (word : List Symbol) → Derives (.repeated item) word → Prop}
    (stop : motive [] .stop)
    (more : ∀ (front back : List Symbol) (head : Derives item front)
      (others : Derives (.repeated item) back), motive back others →
      motive (front ++ back) (.more head others))
    (h : Derives (.repeated item) word) :
    motive word h := by
  have general : ∀ form, (derived : Derives form word) → (same : form = .repeated item) →
      motive word (same ▸ derived) := by
    intro form derived
    induction derived with
    | stop =>
      intro same
      cases same
      exact stop
    | more head others _ ih =>
      intro same
      cases same
      exact more _ _ head others (ih others rfl)
    | _ => exact nofun
  exact general _ h rfl

theorem derives_repeated_append
    {front back : List Symbol}
    (left : Derives (.repeated item) front)
    (right : Derives (.repeated item) back) :
    Derives (.repeated item) (front ++ back) := by
  induction left using repeated_induction with
  | stop => exact right
  | more head others derived _ ih =>
    rw [List.append_assoc]
    exact .more derived ih

end Derives

end Ebnf

namespace Nonterminal

/-- The symbols that start a primary expression. -/
def primaries : List Symbol :=
  [.ident, .integer, .real, .string, .character, .mark .leftBrace, .mark .leftBracket, .word .NIL,
    .word .IMAG, .word .TRUE, .word .FALSE, .word .SELF, .word .RESULT, .word .ADDRESS, .word .SIZE,
    .word .ALIAS, .word .NEW, .mark .leftParen]

/-- The symbols that start a factor. -/
def operands : List Symbol := [.mark .tilde, .mark .plus, .mark .minus] ++ primaries

/-- The symbols by which the words of each name can start. -/
def starts : Nonterminal → List Symbol
  | expression | range | expressionList => [.mark .times, .mark .upto] ++ operands
  | simple | term | factor => operands
  | unary | primary => primaries
  | call => [.mark .leftParen]
  | operation =>
    [.mark .leftParen, .mark .leftBracket, .mark .period, .mark .arrow, .mark .backtick]
  | indexList => [.mark .question, .mark .times, .mark .upto] ++ operands
  | array => [.mark .leftBracket]
  | set | flags => [.mark .leftBrace]
  | flag | qualified => [.ident]

end Nonterminal

namespace Ebnf

/-- Whether a form can be empty.  No name can. -/
def nullable : Ebnf → Bool
  | nothing => true
  | symbols _ => false
  | rule _ => false
  | seq first second => first.nullable && second.nullable
  | alt first second => first.nullable || second.nullable
  | repeated _ => true

/-- The symbols by which the words of a form can start. -/
def first : Ebnf → List Symbol
  | nothing => []
  | symbols alternatives => alternatives
  | rule name => name.starts
  | seq first second => first.first ++ if first.nullable then second.first else []
  | alt first second => first.first ++ second.first
  | repeated item => item.first

theorem nullable_definition (name : Nonterminal) : name.definition.nullable = false := by
  cases name <;> rfl

theorem first_definition (name : Nonterminal) :
    ∀ symbol ∈ name.definition.first, symbol ∈ name.starts := by
  cases name <;> decide +kernel

/-- A word is empty or starts with one of the symbols. -/
theorem Derives.starts
    {form : Ebnf}
    {word : List Symbol}
    (h : Derives form word) :
    (word = [] ∧ form.nullable = true) ∨
      ∃ symbol rest, word = symbol :: rest ∧ symbol ∈ form.first := by
  induction h with
  | nothing => exact .inl ⟨rfl, rfl⟩
  | symbols member => exact .inr ⟨_, _, rfl, member⟩
  | @rule name _ _ ih =>
    rcases ih with ⟨-, nullable⟩ | ⟨symbol, rest, rfl, member⟩
    · rw [nullable_definition] at nullable
      cases nullable
    · exact .inr ⟨symbol, rest, rfl, first_definition name symbol member⟩
  | seq _ _ left right =>
    rcases left with ⟨rfl, nullable⟩ | ⟨symbol, rest, rfl, member⟩
    · rcases right with ⟨rfl, nullable'⟩ | ⟨symbol, rest, rfl, member⟩
      · exact .inl ⟨rfl, by rw [Ebnf.nullable, nullable, nullable', Bool.and_self]⟩
      · refine .inr ⟨symbol, rest, rfl, ?_⟩
        rw [first, nullable, if_pos rfl]
        exact List.mem_append_right _ member
    · exact .inr ⟨symbol, _, rfl, List.mem_append_left _ member⟩
  | left _ ih =>
    rcases ih with ⟨rfl, nullable⟩ | ⟨symbol, rest, rfl, member⟩
    · exact .inl ⟨rfl, by rw [Ebnf.nullable, nullable, Bool.true_or]⟩
    · exact .inr ⟨symbol, rest, rfl, List.mem_append_left _ member⟩
  | right _ ih =>
    rcases ih with ⟨rfl, nullable⟩ | ⟨symbol, rest, rfl, member⟩
    · exact .inl ⟨rfl, by rw [Ebnf.nullable, nullable, Bool.or_true]⟩
    · exact .inr ⟨symbol, rest, rfl, List.mem_append_right _ member⟩
  | stop => exact .inl ⟨rfl, rfl⟩
  | more _ _ head others =>
    rcases head with ⟨rfl, -⟩ | ⟨symbol, rest, rfl, member⟩
    · exact others
    · exact .inr ⟨symbol, _, rfl, member⟩

theorem Derives.ne_nil
    {form : Ebnf}
    {word : List Symbol}
    (h : Derives form word)
    (filled : form.nullable = false) :
    word ≠ [] := by
  rcases h.starts with ⟨-, nullable⟩ | ⟨symbol, rest, rfl, -⟩
  · rw [filled] at nullable
    cases nullable
  · exact List.cons_ne_nil _ _

/-- The symbol that comes next, which is the end of the file after all others. -/
def next (symbols : List Symbol) : Symbol := symbols.headD .endOfFile

theorem Derives.next_mem_first
    {form : Ebnf}
    {word rest : List Symbol}
    (h : Derives form word)
    (filled : form.nullable = false) :
    next (word ++ rest) ∈ form.first := by
  rcases h.starts with ⟨-, nullable⟩ | ⟨symbol, others, rfl, member⟩
  · rw [filled] at nullable
    cases nullable
  · exact member

/-- What can come next before a form that is followed by one of some symbols. -/
def ahead (form : Ebnf) (follow : List Symbol) : List Symbol :=
  form.first ++ if form.nullable then follow else []

theorem Derives.next_mem_ahead
    {form : Ebnf}
    {word rest follow : List Symbol}
    (h : Derives form word)
    (after : next rest ∈ follow) :
    next (word ++ rest) ∈ form.ahead follow := by
  rcases h.starts with ⟨rfl, nullable⟩ | ⟨symbol, others, rfl, member⟩
  · rw [ahead, nullable, if_pos rfl]
    exact List.mem_append_right _ after
  · exact List.mem_append_left _ member

end Ebnf

end Oberon
