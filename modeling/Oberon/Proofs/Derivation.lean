import Oberon.Parser.Parse

/-!
# Derivations

What a production reads, as a relation.  `Production.Reads` has one rule for every way in which a
production can succeed: where the cursor stands before and after, what is yielded, and on which
symbol the choice was made.  A level of nesting is used up by `deeper` and by nothing else.

The relation and the parser agree: `Production.run_eq_ok_iff`.  Everything that holds of all trees
the parser can build is therefore proved by induction over derivations, with the rules as cases, and
a construct is shown to be parsed by giving its derivation.
-/

namespace Oberon

namespace Cursor

theorem symbol_of_rest
    {cursor : Cursor}
    {lexeme : Lexeme}
    {rest : List Lexeme}
    (h : cursor.rest = lexeme :: rest) :
    cursor.symbol = lexeme.symbol := by
  simp [symbol, token, next, h, Lexeme.symbol]

theorem symbol_of_rest_nil
    {cursor : Cursor}
    (h : cursor.rest = []) :
    cursor.symbol = .endOfFile := by
  simp [symbol, token, next, h, Token.endAt]

theorem exists_of_symbol_ne
    (cursor : Cursor)
    (h : cursor.symbol ≠ .endOfFile) :
    ∃ lexeme rest, cursor.rest = lexeme :: rest := by
  cases standing : cursor.rest with
  | nil => exact absurd (symbol_of_rest_nil standing) h
  | cons lexeme rest => exact ⟨lexeme, rest, rfl⟩

end Cursor

namespace Parser

variable {α β : Type}

@[simp] theorem pure_eq_ok_iff
    {value result : α}
    {cursor after : Cursor} :
    (pure value : Parser α) cursor = .ok result after ↔ value = result ∧ cursor = after := by
  simp [pure, EStateM.pure]

@[simp] theorem bind_eq_ok_iff
    {first : Parser α}
    {next : α → Parser β}
    {result : β}
    {cursor after : Cursor} :
    (first >>= next) cursor = .ok result after ↔
      ∃ value middle, first cursor = .ok value middle ∧ next value middle = .ok result after := by
  simp only [bind, EStateM.bind]
  cases first cursor with
  | ok value middle =>
    constructor
    · intro h
      exact ⟨value, middle, rfl, h⟩
    · rintro ⟨_, _, ⟨⟩, h⟩
      exact h
  | error violation middle => simp

@[simp] theorem peek_eq_ok_iff
    {symbol : Symbol}
    {cursor after : Cursor} :
    peek cursor = .ok symbol after ↔ cursor.symbol = symbol ∧ cursor = after := by
  simp [peek]

@[simp] theorem get_eq_ok_iff
    {state cursor after : Cursor} :
    (get : Parser Cursor) cursor = .ok state after ↔ cursor = state ∧ cursor = after := by
  change EStateM.Result.ok cursor cursor = .ok state after ↔ _
  simp

theorem token_eq_ok_iff
    {test : Symbol → Bool}
    {reason : Reason}
    {lexeme : Lexeme}
    {cursor after : Cursor} :
    token test reason cursor = .ok lexeme after ↔
      test lexeme.symbol = true ∧
        cursor.rest = lexeme :: after.rest ∧ after.stop = cursor.stop ∧
          after.reached = lexeme.token.stop := by
  rcases cursor with ⟨rest, stop, reached⟩
  rcases after with ⟨rest', stop', reached'⟩
  cases rest with
  | nil => simp [token]
  | cons head rest =>
    by_cases h : test head.symbol = true
    · simp only [token, h, if_true, EStateM.Result.ok.injEq, Cursor.mk.injEq, List.cons.injEq]
      constructor
      · rintro ⟨rfl, rfl, rfl, rfl⟩
        exact ⟨h, ⟨rfl, rfl⟩, rfl, rfl⟩
      · rintro ⟨-, ⟨rfl, rfl⟩, rfl, rfl⟩
        exact ⟨rfl, rfl, rfl, rfl⟩
    · simp only [token, h, List.cons.injEq]
      constructor
      · intro impossible
        cases impossible
      · rintro ⟨accepted, ⟨rfl, -⟩, -⟩
        exact absurd accepted h

theorem fail_ne_ok
    {reason : Reason}
    {result : α}
    {cursor after : Cursor} :
    fail reason cursor ≠ .ok result after := by
  simp [fail]

theorem finish_eq_ok_iff
    {cursor after : Cursor} :
    Parser.finish cursor = .ok () after ↔
      cursor.rest = [] ∧ after = { cursor with reached := cursor.stop } := by
  unfold finish
  split
  · rename_i nothing
    simp [nothing, eq_comm]
  · rename_i more
    simp [more]

/-- Where a parser that succeeds leaves the cursor. -/
def place? (parser : Parser α) (cursor : Cursor) : Option Cursor :=
  match parser cursor with
  | .ok _ after => some after
  | .error _ _ => none

theorem place?_eq_some_iff
    {parser : Parser α}
    {cursor after : Cursor} :
    parser.place? cursor = some after ↔ ∃ value, parser cursor = .ok value after := by
  unfold place?
  cases parser cursor with
  | ok value last => simp
  | error violation last => simp

/-- What a parser that succeeds yields. -/
def value? (parser : Parser α) (cursor : Cursor) : Option α :=
  match parser cursor with
  | .ok value _ => some value
  | .error _ _ => none

theorem value?_eq_some_iff
    {parser : Parser α}
    {cursor : Cursor}
    {value : α} :
    parser.value? cursor = some value ↔ ∃ after, parser cursor = .ok value after := by
  unfold value?
  cases parser cursor with
  | ok value last => simp
  | error violation last => simp

/-- A loop either ends with its first step, or goes on where that step has led to. -/
theorem iterate_eq_ok_iff
    {step : Parser (List α × Bool)}
    {result : List α}
    {cursor after : Cursor} :
    iterate step cursor = .ok result after ↔
      (∃ again, step cursor = .ok (result, again) after ∧
        ¬ (again = true ∧ after.rest.length < cursor.rest.length)) ∨
      (∃ done more middle, step cursor = .ok (done, true) middle ∧
        middle.rest.length < cursor.rest.length ∧
          iterate step middle = .ok more after ∧ result = done ++ more) := by
  rw [iterate]
  cases stepped : step cursor with
  | error violation middle => simp
  | ok outcome middle =>
    rcases outcome with ⟨done, again⟩
    by_cases goes : again = true ∧ middle.rest.length < cursor.rest.length
    · simp only [goes, and_self, if_true]
      cases continued : iterate step middle with
      | error violation last => grind
      | ok more last => grind
    · simp only [goes, if_false]
      grind

end Parser

namespace Production

attribute [local simp] run

section Run

variable
  {below : Level → Parser Tree}
  {cursor after : Cursor}
  {output : List Tree}

theorem run_token_eq_ok_iff
    {role : Role}
    {symbols : List Symbol}
    {reason : Reason} :
    (Production.token role symbols reason).run below cursor = .ok output after ↔
      ∃ lexeme, lexeme.symbol ∈ symbols ∧ cursor.rest = lexeme :: after.rest ∧
        after.stop = cursor.stop ∧ after.reached = lexeme.token.stop ∧
          output = [.leaf role lexeme] := by
  simp only [run, Parser.bind_eq_ok_iff, Parser.token_eq_ok_iff, Parser.pure_eq_ok_iff,
    decide_eq_true_eq]
  constructor
  · rintro ⟨lexeme, _, ⟨fits, rest, stop, reached⟩, rfl, rfl⟩
    exact ⟨lexeme, fits, rest, stop, reached, rfl⟩
  · rintro ⟨lexeme, fits, rest, stop, reached, rfl⟩
    exact ⟨lexeme, after, ⟨fits, rest, stop, reached⟩, rfl, rfl⟩

theorem run_seq_eq_ok_iff
    {first second : Production .parts} :
    (Production.seq first second).run below cursor = .ok output after ↔
      ∃ front middle back, first.run below cursor = .ok front middle ∧
        second.run below middle = .ok back after ∧ output = front ++ back := by
  simp only [run, Parser.bind_eq_ok_iff, Parser.pure_eq_ok_iff]
  constructor
  · rintro ⟨front, middle, left, back, _, right, rfl, rfl⟩
    exact ⟨front, middle, back, left, right, rfl⟩
  · rintro ⟨front, middle, back, left, right, rfl⟩
    exact ⟨front, middle, left, back, after, right, rfl, rfl⟩

theorem run_branch_eq
    {yield : Yield}
    {starts : List Symbol}
    {first second : Production yield} :
    (Production.branch starts first second).run below cursor =
      if cursor.symbol ∈ starts then first.run below cursor else second.run below cursor := by
  simp only [run, bind, EStateM.bind, Parser.peek]
  split <;> rfl

/-- One step of a list of items. -/
theorem manyStep_eq_ok_iff
    {starts : List Symbol}
    {item : Production .parts}
    {again : Bool} :
    (do if (← Parser.peek) ∈ starts then return (← item.run below, true) else return ([], false) :
        Parser (List Tree × Bool)) cursor = .ok (output, again) after ↔
      (cursor.symbol ∈ starts ∧ item.run below cursor = .ok output after ∧ again = true) ∨
      (cursor.symbol ∉ starts ∧ output = [] ∧ again = false ∧ after = cursor) := by
  rw [Parser.bind_eq_ok_iff]
  simp only [Parser.peek_eq_ok_iff]
  constructor
  · rintro ⟨_, _, ⟨rfl, rfl⟩, h⟩
    split at h
    · rename_i chosen
      simp only [Parser.bind_eq_ok_iff, Parser.pure_eq_ok_iff, Prod.mk.injEq] at h
      rcases h with ⟨_, _, h, ⟨rfl, rfl⟩, rfl⟩
      exact .inl ⟨chosen, h, rfl⟩
    · rename_i refused
      simp only [Parser.pure_eq_ok_iff, Prod.mk.injEq] at h
      rcases h with ⟨⟨rfl, rfl⟩, rfl⟩
      exact .inr ⟨refused, rfl, rfl, rfl⟩
  · rintro (⟨chosen, h, rfl⟩ | ⟨refused, rfl, rfl, rfl⟩)
    · refine ⟨_, _, ⟨rfl, rfl⟩, ?_⟩
      rw [if_pos chosen, Parser.bind_eq_ok_iff]
      exact ⟨output, after, h, by simp⟩
    · refine ⟨_, _, ⟨rfl, rfl⟩, ?_⟩
      rw [if_neg refused]
      simp

theorem run_many_eq_ok_iff
    {starts : List Symbol}
    {item : Production .parts} :
    (Production.many starts item).run below cursor = .ok output after ↔
      (cursor.symbol ∉ starts ∧ output = [] ∧ after = cursor) ∨
      (cursor.symbol ∈ starts ∧ item.run below cursor = .ok output after ∧
        ¬ after.rest.length < cursor.rest.length) ∨
      (cursor.symbol ∈ starts ∧ ∃ front middle back, item.run below cursor = .ok front middle ∧
        middle.rest.length < cursor.rest.length ∧
          (Production.many starts item).run below middle = .ok back after ∧
            output = front ++ back) := by
  rw [run, Parser.iterate_eq_ok_iff]
  simp only [manyStep_eq_ok_iff]
  constructor
  · rintro (⟨_, ⟨chosen, h, rfl⟩ | ⟨refused, rfl, rfl, rfl⟩, ends⟩ |
      ⟨front, back, middle, ⟨chosen, h, -⟩ | ⟨-, -, impossible, -⟩, progress, others, rfl⟩)
    · exact .inr (.inl ⟨chosen, h, by simpa using ends⟩)
    · exact .inl ⟨refused, rfl, rfl⟩
    · exact .inr (.inr ⟨chosen, front, middle, back, h, progress, others, rfl⟩)
    · cases impossible
  · rintro (⟨refused, rfl, rfl⟩ | ⟨chosen, h, stall⟩ |
      ⟨chosen, front, middle, back, h, progress, others, rfl⟩)
    · exact .inl ⟨false, .inr ⟨refused, rfl, rfl, rfl⟩, by simp⟩
    · exact .inl ⟨true, .inl ⟨chosen, h, rfl⟩, by simpa using stall⟩
    · exact .inr ⟨front, back, middle, .inl ⟨chosen, h, trivial⟩, progress, others, rfl⟩

/-- One step of a list of separators and items. -/
theorem tailStep_eq_ok_iff
    {separator : Symbol}
    {role exitRole : Role}
    {stops : List Symbol}
    {exit item : Production .parts}
    {again : Bool} :
    (do
      if (← Parser.peek) = separator then
        let lexeme ← Parser.token (· = separator) (.missing separator "list")
        if (← Parser.peek) ∈ stops then
          return (.leaf exitRole lexeme :: (← exit.run below), false)
        else
          return (.leaf role lexeme :: (← item.run below), true)
      else
        return ([], false) : Parser (List Tree × Bool)) cursor = .ok (output, again) after ↔
      (cursor.symbol ≠ separator ∧ output = [] ∧ again = false ∧ after = cursor) ∨
      (∃ lexeme rest trees, lexeme.symbol = separator ∧ cursor.rest = lexeme :: rest ∧
        ((⟨rest, cursor.stop, lexeme.token.stop⟩ : Cursor).symbol ∈ stops ∧
            exit.run below ⟨rest, cursor.stop, lexeme.token.stop⟩ = .ok trees after ∧
              again = false ∧ output = .leaf exitRole lexeme :: trees ∨
          (⟨rest, cursor.stop, lexeme.token.stop⟩ : Cursor).symbol ∉ stops ∧
            item.run below ⟨rest, cursor.stop, lexeme.token.stop⟩ = .ok trees after ∧
              again = true ∧ output = .leaf role lexeme :: trees)) := by
  rw [Parser.bind_eq_ok_iff]
  simp only [Parser.peek_eq_ok_iff]
  constructor
  · rintro ⟨_, _, ⟨rfl, rfl⟩, h⟩
    split at h
    · simp only [Parser.bind_eq_ok_iff, Parser.token_eq_ok_iff, Parser.peek_eq_ok_iff,
        decide_eq_true_eq] at h
      rcases h with ⟨lexeme, ⟨rest, _, _⟩, ⟨fits, consumed, rfl, rfl⟩, _, _, ⟨rfl, rfl⟩, h⟩
      refine .inr ⟨lexeme, rest, ?_⟩
      split at h
      · rename_i chosen
        simp only [Parser.bind_eq_ok_iff, Parser.pure_eq_ok_iff, Prod.mk.injEq] at h
        rcases h with ⟨trees, _, h, ⟨rfl, rfl⟩, rfl⟩
        exact ⟨trees, fits, consumed, .inl ⟨chosen, h, rfl, rfl⟩⟩
      · rename_i refused
        simp only [Parser.bind_eq_ok_iff, Parser.pure_eq_ok_iff, Prod.mk.injEq] at h
        rcases h with ⟨trees, _, h, ⟨rfl, rfl⟩, rfl⟩
        exact ⟨trees, fits, consumed, .inr ⟨refused, h, rfl, rfl⟩⟩
    · rename_i refused
      simp only [Parser.pure_eq_ok_iff, Prod.mk.injEq] at h
      rcases h with ⟨⟨rfl, rfl⟩, rfl⟩
      exact .inl ⟨refused, rfl, rfl, rfl⟩
  · rintro (⟨refused, rfl, rfl, rfl⟩ | ⟨lexeme, rest, trees, fits, consumed, h⟩)
    · refine ⟨_, _, ⟨rfl, rfl⟩, ?_⟩
      rw [if_neg refused]
      simp
    · refine ⟨_, _, ⟨rfl, rfl⟩, ?_⟩
      have symbol : cursor.symbol = separator := (Cursor.symbol_of_rest consumed).trans fits
      rw [if_pos symbol]
      simp only [Parser.bind_eq_ok_iff, Parser.token_eq_ok_iff, Parser.peek_eq_ok_iff,
        decide_eq_true_eq]
      refine ⟨lexeme, ⟨rest, cursor.stop, lexeme.token.stop⟩, ⟨fits, consumed, rfl, rfl⟩, _, _,
        ⟨rfl, rfl⟩, ?_⟩
      rcases h with ⟨chosen, h, rfl, rfl⟩ | ⟨refused, h, rfl, rfl⟩
      · rw [if_pos chosen, Parser.bind_eq_ok_iff]
        exact ⟨trees, after, h, by simp⟩
      · rw [if_neg refused, Parser.bind_eq_ok_iff]
        exact ⟨trees, after, h, by simp⟩

theorem run_tail_eq_ok_iff
    {separator : Symbol}
    {role exitRole : Role}
    {stops : List Symbol}
    {exit item : Production .parts} :
    (Production.tail separator role stops exitRole exit item).run below cursor =
        .ok output after ↔
      (cursor.symbol ≠ separator ∧ output = [] ∧ after = cursor) ∨
      (∃ lexeme rest trees, lexeme.symbol = separator ∧ cursor.rest = lexeme :: rest ∧
        (⟨rest, cursor.stop, lexeme.token.stop⟩ : Cursor).symbol ∈ stops ∧
          exit.run below ⟨rest, cursor.stop, lexeme.token.stop⟩ = .ok trees after ∧
            output = .leaf exitRole lexeme :: trees) ∨
      (∃ lexeme rest front middle, lexeme.symbol = separator ∧ cursor.rest = lexeme :: rest ∧
        (⟨rest, cursor.stop, lexeme.token.stop⟩ : Cursor).symbol ∉ stops ∧
          item.run below ⟨rest, cursor.stop, lexeme.token.stop⟩ = .ok front middle ∧
            (¬ middle.rest.length < cursor.rest.length ∧ middle = after ∧
                output = .leaf role lexeme :: front ∨
              middle.rest.length < cursor.rest.length ∧ ∃ back,
                (Production.tail separator role stops exitRole exit item).run below middle =
                    .ok back after ∧
                  output = .leaf role lexeme :: front ++ back)) := by
  rw [run, Parser.iterate_eq_ok_iff]
  simp only [tailStep_eq_ok_iff]
  constructor
  · rintro (⟨_, ⟨refused, rfl, rfl, rfl⟩ |
        ⟨lexeme, rest, trees, fits, consumed,
          ⟨chosen, h, rfl, rfl⟩ | ⟨refused, h, rfl, rfl⟩⟩, ends⟩ |
      ⟨_, back, middle, ⟨-, -, impossible, -⟩ |
        ⟨lexeme, rest, trees, fits, consumed,
          ⟨-, -, impossible, -⟩ | ⟨refused, h, -, rfl⟩⟩, progress, others, rfl⟩)
    · exact .inl ⟨refused, rfl, rfl⟩
    · exact .inr (.inl ⟨lexeme, rest, trees, fits, consumed, chosen, h, rfl⟩)
    · refine .inr (.inr ⟨lexeme, rest, trees, after, fits, consumed, refused, h,
        .inl ⟨?_, rfl, rfl⟩⟩)
      simpa using ends
    · cases impossible
    · cases impossible
    · exact .inr (.inr ⟨lexeme, rest, trees, middle, fits, consumed, refused, h,
        .inr ⟨progress, back, others, rfl⟩⟩)
  · rintro (⟨refused, rfl, rfl⟩ | ⟨lexeme, rest, trees, fits, consumed, chosen, h, rfl⟩ |
      ⟨lexeme, rest, front, middle, fits, consumed, refused, h,
        ⟨stall, rfl, rfl⟩ | ⟨progress, back, others, rfl⟩⟩)
    · exact .inl ⟨false, .inl ⟨refused, rfl, rfl, rfl⟩, by simp⟩
    · exact .inl ⟨false,
        .inr ⟨lexeme, rest, trees, fits, consumed, .inl ⟨chosen, h, rfl, rfl⟩⟩, by simp⟩
    · exact .inl ⟨true,
        .inr ⟨lexeme, rest, front, fits, consumed, .inr ⟨refused, h, rfl, rfl⟩⟩,
        by simpa using stall⟩
    · exact .inr ⟨.leaf role lexeme :: front, back, middle,
        .inr ⟨lexeme, rest, front, fits, consumed, .inr ⟨refused, h, trivial, rfl⟩⟩,
        progress, others, rfl⟩

theorem run_part_eq_ok_iff
    {role : Role}
    {construct : Production .construct} :
    (Production.part role construct).run below cursor = .ok output after ↔
      ∃ tree, construct.run below cursor = .ok tree after ∧ output = [tree.withRole role] := by
  simp only [run, Parser.bind_eq_ok_iff, Parser.pure_eq_ok_iff]
  constructor
  · rintro ⟨tree, _, h, rfl, rfl⟩
    exact ⟨tree, h, rfl⟩
  · rintro ⟨tree, h, rfl⟩
    exact ⟨tree, after, h, rfl, rfl⟩

theorem run_assemble_eq_ok_iff
    {assembly : Assembly}
    {parts : Production .parts}
    {tree : Tree} :
    (Production.assemble assembly parts).run below cursor = .ok tree after ↔
      ∃ trees, parts.run below cursor = .ok trees after ∧
        tree = .assemble assembly (after.spanFrom cursor.start) trees := by
  simp only [run, Parser.bind_eq_ok_iff, Parser.pure_eq_ok_iff, Parser.get_eq_ok_iff]
  constructor
  · rintro ⟨_, _, ⟨rfl, rfl⟩, trees, _, h, _, _, ⟨rfl, rfl⟩, rfl, rfl⟩
    exact ⟨trees, h, rfl⟩
  · rintro ⟨trees, h, rfl⟩
    exact ⟨cursor, cursor, ⟨rfl, rfl⟩, trees, after, h, after, after, ⟨rfl, rfl⟩, rfl, rfl⟩

theorem run_reclaim_eq_ok_iff
    {body closing : Production .parts} :
    (Production.reclaim body closing).run below cursor = .ok output after ↔
      (∃ trees, body.run below cursor = .ok trees after ∧ after.symbol ≠ .word .END ∧
        Tree.reclaimEnd? trees = some output) ∨
      (∃ front middle back, body.run below cursor = .ok front middle ∧
        (middle.symbol = .word .END ∨ Tree.reclaimEnd? front = none) ∧
          closing.run below middle = .ok back after ∧ output = front ++ back) := by
  simp only [run, Parser.bind_eq_ok_iff, Parser.peek_eq_ok_iff]
  constructor
  · rintro ⟨front, middle, h, _, _, ⟨rfl, rfl⟩, last⟩
    cases handed : if middle.symbol = .word .END then none else Tree.reclaimEnd? front with
    | some reclaimed =>
      simp only [handed, Parser.pure_eq_ok_iff] at last
      rcases last with ⟨rfl, rfl⟩
      rw [Option.ite_none_left_eq_some] at handed
      exact .inl ⟨front, h, handed.1, handed.2⟩
    | none =>
      simp only [handed, Parser.bind_eq_ok_iff, Parser.pure_eq_ok_iff] at last
      rcases last with ⟨back, _, last, rfl, rfl⟩
      refine .inr ⟨front, middle, back, h, ?_, last, rfl⟩
      by_cases ending : middle.symbol = .word .END
      · exact .inl ending
      · exact .inr (by simpa [ending] using handed)
  · rintro (⟨trees, h, closed, handed⟩ | ⟨front, middle, back, h, kept, last, rfl⟩)
    · refine ⟨trees, after, h, _, _, ⟨rfl, rfl⟩, ?_⟩
      simp [closed, handed]
    · refine ⟨front, middle, h, _, _, ⟨rfl, rfl⟩, ?_⟩
      have none : (if middle.symbol = .word .END then none else Tree.reclaimEnd? front) = none := by
        rcases kept with ending | nothing
        · simp [ending]
        · simp [nothing]
      rw [none]
      simp only [Parser.bind_eq_ok_iff, Parser.pure_eq_ok_iff]
      exact ⟨back, after, last, rfl, rfl⟩

end Run

/-- With some levels of nesting left, a production reads from one place to another and yields
something. -/
inductive Reads : Nat → {yield : Yield} → Production yield → Cursor → yield.Output → Cursor → Prop
  | empty
      {budget : Nat}
      {cursor : Cursor} :
      Reads budget .empty cursor [] cursor
  | token
      {budget : Nat}
      {role : Role}
      {symbols : List Symbol}
      {reason : Reason}
      {lexeme : Lexeme}
      {rest : List Lexeme}
      {stop reached : Nat}
      (fits : lexeme.symbol ∈ symbols) :
      Reads budget (.token role symbols reason) ⟨lexeme :: rest, stop, reached⟩
        [.leaf role lexeme] ⟨rest, stop, lexeme.token.stop⟩
  | gap
      {budget : Nat}
      {role : Role}
      {cursor : Cursor} :
      Reads budget (.gap role) cursor [.missing role] cursor
  | seq
      {budget : Nat}
      {first second : Production .parts}
      {cursor middle after : Cursor}
      {front back : List Tree}
      (left : Reads budget first cursor front middle)
      (right : Reads budget second middle back after) :
      Reads budget (.seq first second) cursor (front ++ back) after
  | first
      {budget : Nat}
      {yield : Yield}
      {starts : List Symbol}
      {first second : Production yield}
      {cursor after : Cursor}
      {output : yield.Output}
      (chosen : cursor.symbol ∈ starts)
      (inner : Reads budget first cursor output after) :
      Reads budget (.branch starts first second) cursor output after
  | second
      {budget : Nat}
      {yield : Yield}
      {starts : List Symbol}
      {first second : Production yield}
      {cursor after : Cursor}
      {output : yield.Output}
      (refused : cursor.symbol ∉ starts)
      (inner : Reads budget second cursor output after) :
      Reads budget (.branch starts first second) cursor output after
  | manyStop
      {budget : Nat}
      {starts : List Symbol}
      {item : Production .parts}
      {cursor : Cursor}
      (refused : cursor.symbol ∉ starts) :
      Reads budget (.many starts item) cursor [] cursor
  | manyStep
      {budget : Nat}
      {starts : List Symbol}
      {item : Production .parts}
      {cursor middle after : Cursor}
      {front back : List Tree}
      (chosen : cursor.symbol ∈ starts)
      (head : Reads budget item cursor front middle)
      (progress : middle.rest.length < cursor.rest.length)
      (others : Reads budget (.many starts item) middle back after) :
      Reads budget (.many starts item) cursor (front ++ back) after
  | manyStall
      {budget : Nat}
      {starts : List Symbol}
      {item : Production .parts}
      {cursor after : Cursor}
      {front : List Tree}
      (chosen : cursor.symbol ∈ starts)
      (head : Reads budget item cursor front after)
      (stall : ¬ after.rest.length < cursor.rest.length) :
      Reads budget (.many starts item) cursor front after
  | tailStop
      {budget : Nat}
      {separator : Symbol}
      {role exitRole : Role}
      {stops : List Symbol}
      {exit item : Production .parts}
      {cursor : Cursor}
      (refused : cursor.symbol ≠ separator) :
      Reads budget (.tail separator role stops exitRole exit item) cursor [] cursor
  | tailStep
      {budget : Nat}
      {role exitRole : Role}
      {stops : List Symbol}
      {exit item : Production .parts}
      {lexeme : Lexeme}
      {rest : List Lexeme}
      {stop reached : Nat}
      {middle after : Cursor}
      {front back : List Tree}
      (refused : (⟨rest, stop, lexeme.token.stop⟩ : Cursor).symbol ∉ stops)
      (head : Reads budget item ⟨rest, stop, lexeme.token.stop⟩ front middle)
      (others :
        Reads budget (.tail lexeme.symbol role stops exitRole exit item) middle back after) :
      Reads budget (.tail lexeme.symbol role stops exitRole exit item)
        ⟨lexeme :: rest, stop, reached⟩ (.leaf role lexeme :: front ++ back) after
  | tailExit
      {budget : Nat}
      {role exitRole : Role}
      {stops : List Symbol}
      {exit item : Production .parts}
      {lexeme : Lexeme}
      {rest : List Lexeme}
      {stop reached : Nat}
      {after : Cursor}
      {back : List Tree}
      (chosen : (⟨rest, stop, lexeme.token.stop⟩ : Cursor).symbol ∈ stops)
      (last : Reads budget exit ⟨rest, stop, lexeme.token.stop⟩ back after) :
      Reads budget (.tail lexeme.symbol role stops exitRole exit item)
        ⟨lexeme :: rest, stop, reached⟩ (.leaf exitRole lexeme :: back) after
  | part
      {budget : Nat}
      {role : Role}
      {construct : Production .construct}
      {cursor after : Cursor}
      {tree : Tree}
      (inner : Reads budget construct cursor tree after) :
      Reads budget (.part role construct) cursor [tree.withRole role] after
  | assemble
      {budget : Nat}
      {assembly : Assembly}
      {parts : Production .parts}
      {cursor after : Cursor}
      {trees : List Tree}
      (inner : Reads budget parts cursor trees after) :
      Reads budget (.assemble assembly parts) cursor
        (.assemble assembly (after.spanFrom cursor.start) trees) after
  | deeper
      {budget : Nat}
      {level : Level}
      {cursor after : Cursor}
      {tree : Tree}
      (inner : Reads budget level.production cursor tree after) :
      Reads (budget + 1) (.deeper level) cursor tree after
  | reclaimed
      {budget : Nat}
      {body closing : Production .parts}
      {cursor after : Cursor}
      {trees reclaimed : List Tree}
      (inner : Reads budget body cursor trees after)
      (closed : after.symbol ≠ .word .END)
      (handed : Tree.reclaimEnd? trees = some reclaimed) :
      Reads budget (.reclaim body closing) cursor reclaimed after
  | unclaimed
      {budget : Nat}
      {body closing : Production .parts}
      {cursor middle after : Cursor}
      {front back : List Tree}
      (inner : Reads budget body cursor front middle)
      (kept : middle.symbol = .word .END ∨ Tree.reclaimEnd? front = none)
      (last : Reads budget closing middle back after) :
      Reads budget (.reclaim body closing) cursor (front ++ back) after

namespace Reads

variable
  {budget : Nat}
  {yield : Yield}
  {production : Production yield}
  {cursor after : Cursor}
  {output : yield.Output}

/-- Reading only takes lexemes away from the front. -/
theorem suffix
    (h : Reads budget production cursor output after) :
    after.rest <:+ cursor.rest := by
  induction h with
  | empty => exact List.suffix_rfl
  | token => exact List.suffix_cons _ _
  | gap => exact List.suffix_rfl
  | seq _ _ left right => exact right.trans left
  | first _ _ ih => exact ih
  | second _ _ ih => exact ih
  | manyStop => exact List.suffix_rfl
  | manyStep _ _ _ _ head others => exact others.trans head
  | manyStall _ _ _ ih => exact ih
  | tailStop => exact List.suffix_rfl
  | tailStep _ _ _ head others => exact (others.trans head).trans (List.suffix_cons _ _)
  | tailExit _ _ ih => exact ih.trans (List.suffix_cons _ _)
  | part _ ih => exact ih
  | assemble _ ih => exact ih
  | deeper _ ih => exact ih
  | reclaimed _ _ _ ih => exact ih
  | unclaimed _ _ _ inner last => exact last.trans inner

/-- A derivation is a run of the parser. -/
theorem run
    (h : Reads budget production cursor output after) :
    production.run (Level.parse budget) cursor = .ok output after := by
  induction h with
  | empty => simp
  | @token _ _ _ _ lexeme _ _ _ fits =>
    exact run_token_eq_ok_iff.mpr ⟨lexeme, fits, rfl, rfl, rfl, rfl⟩
  | gap => simp
  | seq _ _ left right => exact run_seq_eq_ok_iff.mpr ⟨_, _, _, left, right, rfl⟩
  | first chosen _ ih => rw [run_branch_eq, if_pos chosen, ih]
  | second refused _ ih => rw [run_branch_eq, if_neg refused, ih]
  | manyStop refused => exact run_many_eq_ok_iff.mpr (.inl ⟨refused, rfl, rfl⟩)
  | manyStep chosen _ progress _ head others =>
    exact run_many_eq_ok_iff.mpr (.inr (.inr ⟨chosen, _, _, _, head, progress, others, rfl⟩))
  | manyStall chosen _ stall head =>
    exact run_many_eq_ok_iff.mpr (.inr (.inl ⟨chosen, head, stall⟩))
  | tailStop refused => exact run_tail_eq_ok_iff.mpr (.inl ⟨refused, rfl, rfl⟩)
  | tailStep refused below _ head others =>
    have shorter := below.suffix.length_le
    refine run_tail_eq_ok_iff.mpr (.inr (.inr
      ⟨_, _, _, _, rfl, rfl, refused, head, .inr ⟨?_, _, others, rfl⟩⟩))
    simp only [List.length_cons] at shorter ⊢
    omega
  | tailExit chosen _ ih =>
    exact run_tail_eq_ok_iff.mpr (.inr (.inl ⟨_, _, _, rfl, rfl, chosen, ih, rfl⟩))
  | part _ ih => exact run_part_eq_ok_iff.mpr ⟨_, ih, rfl⟩
  | assemble _ ih => exact run_assemble_eq_ok_iff.mpr ⟨_, ih, rfl⟩
  | deeper _ ih => exact ih
  | reclaimed _ closed handed ih =>
    exact run_reclaim_eq_ok_iff.mpr (.inl ⟨_, ih, closed, handed⟩)
  | unclaimed _ kept _ inner last =>
    exact run_reclaim_eq_ok_iff.mpr (.inr ⟨_, _, _, inner, kept, last, rfl⟩)

end Reads

section Adequacy

variable
  {budget : Nat}
  {cursor after : Cursor}

/-- If the runs of an item are derivations, then so are those of a list of items. -/
theorem reads_many_of_run
    {starts : List Symbol}
    {item : Production .parts}
    {output : List Tree}
    (items : ∀ {cursor after output}, item.run (Level.parse budget) cursor = .ok output after →
      Reads budget item cursor output after)
    (h : (Production.many starts item).run (Level.parse budget) cursor = .ok output after) :
    Reads budget (.many starts item) cursor output after := by
  induction size : cursor.rest.length using Nat.strongRecOn generalizing cursor output with
  | ind size ih =>
    subst size
    rcases run_many_eq_ok_iff.mp h with ⟨refused, rfl, rfl⟩ | ⟨chosen, head, stall⟩ |
      ⟨chosen, front, middle, back, head, progress, others, rfl⟩
    · exact .manyStop refused
    · exact .manyStall chosen (items head) stall
    · exact .manyStep chosen (items head) progress (ih _ progress others rfl)

/-- If the runs of an item and of the exit are derivations, then so are those of a list of
separators and items. -/
theorem reads_tail_of_run
    {separator : Symbol}
    {role exitRole : Role}
    {stops : List Symbol}
    {exit item : Production .parts}
    {output : List Tree}
    (exits : ∀ {cursor after output}, exit.run (Level.parse budget) cursor = .ok output after →
      Reads budget exit cursor output after)
    (items : ∀ {cursor after output}, item.run (Level.parse budget) cursor = .ok output after →
      Reads budget item cursor output after)
    (h : (Production.tail separator role stops exitRole exit item).run (Level.parse budget) cursor =
      .ok output after) :
    Reads budget (.tail separator role stops exitRole exit item) cursor output after := by
  induction size : cursor.rest.length using Nat.strongRecOn generalizing cursor output with
  | ind size ih =>
    subst size
    rcases cursor with ⟨lexemes, stop, reached⟩
    rcases run_tail_eq_ok_iff.mp h with ⟨refused, rfl, rfl⟩ |
      ⟨lexeme, rest, trees, rfl, rfl, chosen, last, rfl⟩ |
      ⟨lexeme, rest, front, middle, rfl, rfl, refused, head, continued⟩
    · exact .tailStop refused
    · exact .tailExit chosen (exits last)
    · have shorter := (items head).suffix.length_le
      rcases continued with ⟨stall, -, -⟩ | ⟨progress, back, others, rfl⟩
      · -- the separator has been consumed, so the list cannot stall
        simp only [List.length_cons] at shorter stall
        omega
      · exact .tailStep refused (items head) (ih _ progress others rfl)

/-- If the levels one step deeper run as derivations, then so does every production. -/
theorem reads_of_run_of_levels
    (levels : ∀ {level cursor tree after}, Level.parse budget level cursor = .ok tree after →
      Reads budget (.deeper level) cursor tree after)
    {yield : Yield}
    {production : Production yield}
    {output : yield.Output}
    (h : production.run (Level.parse budget) cursor = .ok output after) :
    Reads budget production cursor output after := by
  induction production generalizing cursor after with
  | empty =>
    simp only [Production.run, Parser.pure_eq_ok_iff] at h
    rcases h with ⟨rfl, rfl⟩
    exact .empty
  | token role symbols reason =>
    rcases cursor with ⟨lexemes, stop, reached⟩
    rcases after with ⟨rest, stop', reached'⟩
    rcases run_token_eq_ok_iff.mp h with ⟨lexeme, fits, rfl, rfl, rfl, rfl⟩
    exact .token fits
  | gap role =>
    simp only [Production.run, Parser.pure_eq_ok_iff] at h
    rcases h with ⟨rfl, rfl⟩
    exact .gap
  | fail reason => exact absurd h Parser.fail_ne_ok
  | seq first second left right =>
    rcases run_seq_eq_ok_iff.mp h with ⟨front, middle, back, first, second, rfl⟩
    exact .seq (left first) (right second)
  | branch starts first second left right =>
    rw [run_branch_eq] at h
    split at h
    · rename_i chosen
      exact .first chosen (left h)
    · rename_i refused
      exact .second refused (right h)
  | many starts item ih => exact reads_many_of_run ih h
  | tail separator role stops exitRole exit item exits items =>
    exact reads_tail_of_run exits items h
  | part role construct ih =>
    rcases run_part_eq_ok_iff.mp h with ⟨tree, inner, rfl⟩
    exact .part (ih inner)
  | assemble assembly parts ih =>
    rcases run_assemble_eq_ok_iff.mp h with ⟨trees, inner, rfl⟩
    exact .assemble (ih inner)
  | deeper level => exact levels h
  | reclaim body closing ihBody ihClosing =>
    rcases run_reclaim_eq_ok_iff.mp h with ⟨trees, inner, closed, handed⟩ |
      ⟨front, middle, back, inner, kept, last, rfl⟩
    · exact .reclaimed (ihBody inner) closed handed
    · exact .unclaimed (ihBody inner) kept (ihClosing last)

theorem reads_deeper_of_parse
    {level : Level}
    {tree : Tree}
    (h : Level.parse budget level cursor = .ok tree after) :
    Reads budget (.deeper level) cursor tree after := by
  induction budget generalizing level cursor tree after with
  | zero => exact absurd h Parser.fail_ne_ok
  | succ budget ih => exact .deeper (reads_of_run_of_levels ih h)

/-- The parser succeeds exactly along the derivations. -/
theorem run_eq_ok_iff
    {yield : Yield}
    {production : Production yield}
    {output : yield.Output} :
    production.run (Level.parse budget) cursor = .ok output after ↔
      Reads budget production cursor output after :=
  ⟨reads_of_run_of_levels reads_deeper_of_parse, Reads.run⟩

/-- From one place a production reads in one way only. -/
theorem Reads.deterministic
    {yield : Yield}
    {production : Production yield}
    {output output' : yield.Output}
    {after' : Cursor}
    (h : Reads budget production cursor output after)
    (h' : Reads budget production cursor output' after') :
    output = output' ∧ after = after' := by
  have same := h.run.symm.trans h'.run
  cases same
  exact ⟨rfl, rfl⟩

end Adequacy

end Production

end Oberon
