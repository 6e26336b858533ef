import Mathlib.Logic.Relation
import Oberon.Proofs.Progress
import Oberon.Proofs.Roles

/-!
# Termination

Running a production runs others: its parts, the next round of a loop, and what stands one level
deeper.  `Call.Makes` relates a run to those that it makes directly.  A loop makes its next round as
soon as it asks for it, whether or not it has read a token.

Each call descends (`Call.Below`).  What stands one level deeper has less budget, a part has a lower
rank, and the next round of a loop has fewer tokens left.  The last is a property of the grammar: at
no symbol can a loop go on without reading (`Production.stalling`).  Hence every run ends by itself,
and the check for progress in `Parser.iterate` never decides anything (`Rule.progresses`).
-/

namespace Oberon

/-- A round of a loop, and then the loop once more if the round asks for it. -/
def Parser.andAgain (step : Parser (List Tree × Bool)) (loop : Parser (List Tree)) :
    Parser (List Tree) := do
  let (trees, again) ← step
  if again then return trees ++ (← loop) else return trees

namespace Production

/-- The rank of a production, which is greater than that of its parts. -/
def rank : {yield : Yield} → Production yield → Nat
  | _, .empty => 0
  | _, .token _ _ _ => 0
  | _, .gap _ => 0
  | _, .fail _ => 0
  | _, .seq first second => first.rank + second.rank + 1
  | _, .branch _ first second => first.rank + second.rank + 1
  | _, .many _ item => item.rank + 1
  | _, .tail _ _ _ _ exit item => exit.rank + item.rank + 1
  | _, .part _ construct => construct.rank + 1
  | _, .assemble _ parts => parts.rank + 1
  | _, .deeper _ => 0
  | _, .reclaim body closing => body.rank + closing.rank + 1

/-- The symbols at which a loop within a production may go on without reading a token. -/
def stalling : {yield : Yield} → Production yield → SymbolSet
  | _, .empty => ∅
  | _, .token _ _ _ => ∅
  | _, .gap _ => ∅
  | _, .fail _ => ∅
  | _, .seq first second => first.stalling ∪ second.stalling
  | _, .branch _ first second => first.stalling ∪ second.stalling
  | _, .many starts item => .of starts \ item.moving ∪ item.stalling
  | _, .tail _ _ _ _ exit item => exit.stalling ∪ item.stalling
  | _, .part _ construct => construct.stalling
  | _, .assemble _ parts => parts.stalling
  | _, .deeper _ => ∅
  | _, .reclaim body closing => body.stalling ∪ closing.stalling

/-- At no symbol can a loop within a production go on without reading a token. -/
def Brisk {yield : Yield} (production : Production yield) : Prop :=
  ∀ symbol, symbol ∉ production.stalling

/-- A round of a production that is a loop.  It tells whether it asks for another one. -/
def round (below : Level → Parser Tree) :
    Production .parts → Option (Parser (List Tree × Bool))
  | .many starts item => some do
    if (← Parser.peek) ∈ starts then return (← item.run below, true) else return ([], false)
  | .tail separator role stops exitRole exit item => some do
    if (← Parser.peek) = separator then
      let lexeme ← Parser.token (· = separator) (.missing separator "list")
      if (← Parser.peek) ∈ stops then
        return (.leaf exitRole lexeme :: (← exit.run below), false)
      else
        return (.leaf role lexeme :: (← item.run below), true)
    else
      return ([], false)
  | _ => none

section Rounds

variable
  {below : Level → Parser Tree}
  {budget : Nat}
  {production : Production .parts}
  {step : Parser (List Tree × Bool)}
  {cursor after : Cursor}
  {trees : List Tree}
  {again : Bool}

/-- A loop repeats its round. -/
theorem run_of_round
    (loop : production.round below = some step) :
    production.run below = Parser.iterate step := by
  cases production <;> cases loop <;> rfl

/-- A round reads a token, or the loop ends and nothing has happened. -/
theorem round_reads
    (brisk : production.Brisk)
    (loop : production.round (Level.parse budget) = some step)
    (done : step cursor = .ok (trees, again) after) :
    again = false ∧ trees = [] ∧ after = cursor ∨ after.rest.length < cursor.rest.length := by
  cases production with
  | many starts item =>
    cases loop
    rcases manyStep_eq_ok_iff.mp done with ⟨chosen, read, -⟩ | ⟨-, rfl, rfl, rfl⟩
    · refine .inr ((run_eq_ok_iff.mp read).moved ?_)
      have firm : cursor.symbol ∉ SymbolSet.of starts \ item.moving := fun stalls =>
        brisk _ (SymbolSet.mem_union.mpr (.inl stalls))
      simpa [chosen] using firm
    · exact .inl ⟨rfl, rfl, rfl⟩
  | tail separator role stops exitRole exit item =>
    cases loop
    rcases tailStep_eq_ok_iff.mp done with
      ⟨-, rfl, rfl, rfl⟩ | ⟨lexeme, rest, others, -, there, ⟨-, read, -⟩ | ⟨-, read, -⟩⟩
    · exact .inl ⟨rfl, rfl, rfl⟩
    all_goals
      have shorter := (run_eq_ok_iff.mp read).suffix.length_le
      rw [there]
      exact .inr (Nat.lt_succ_of_le shorter)
  | _ => cases loop

/-- A loop that always reads needs no check for it. -/
theorem run_of_brisk
    (brisk : production.Brisk)
    (loop : production.round (Level.parse budget) = some step)
    (cursor : Cursor) :
    production.run (Level.parse budget) cursor =
      step.andAgain (production.run (Level.parse budget)) cursor := by
  rw [run_of_round loop, Parser.iterate]
  simp only [Parser.andAgain, bind, EStateM.bind]
  cases done : step cursor with
  | error violation after => rfl
  | ok outcome after =>
    rcases outcome with ⟨trees, again⟩
    cases again with
    | false => simp [pure, EStateM.pure]
    | true =>
      have progress := (round_reads brisk loop done).resolve_left (by simp)
      simp only [progress, and_self, if_true, EStateM.bind]
      cases Parser.iterate step after <;> rfl

end Rounds

end Production

/-- No loop of a level stalls. -/
theorem Level.brisk_production (level : Level) : level.production.Brisk := by
  have nothing : level.production.stalling = ∅ := by
    cases level <;> decide +kernel
  intro symbol stalls
  exact SymbolSet.not_mem_empty (nothing ▸ stalls)

/-- A run of a production from a cursor, with some levels of nesting left. -/
structure Call where
  budget : Nat
  {yield : Yield}
  production : Production yield
  cursor : Cursor

namespace Call

/-- One run makes another one directly. -/
inductive Makes : Call → Call → Prop
  | left
      {budget : Nat}
      {first second : Production .parts}
      {cursor : Cursor} :
      Makes ⟨budget, .seq first second, cursor⟩ ⟨budget, first, cursor⟩
  | right
      {budget : Nat}
      {first second : Production .parts}
      {cursor middle : Cursor}
      {front : List Tree}
      (done : first.run (Level.parse budget) cursor = .ok front middle) :
      Makes ⟨budget, .seq first second, cursor⟩ ⟨budget, second, middle⟩
  | first
      {budget : Nat}
      {yield : Yield}
      {starts : List Symbol}
      {first second : Production yield}
      {cursor : Cursor}
      (chosen : cursor.symbol ∈ starts) :
      Makes ⟨budget, .branch starts first second, cursor⟩ ⟨budget, first, cursor⟩
  | second
      {budget : Nat}
      {yield : Yield}
      {starts : List Symbol}
      {first second : Production yield}
      {cursor : Cursor}
      (refused : cursor.symbol ∉ starts) :
      Makes ⟨budget, .branch starts first second, cursor⟩ ⟨budget, second, cursor⟩
  | item
      {budget : Nat}
      {starts : List Symbol}
      {item : Production .parts}
      {cursor : Cursor}
      (chosen : cursor.symbol ∈ starts) :
      Makes ⟨budget, .many starts item, cursor⟩ ⟨budget, item, cursor⟩
  | separated
      {budget : Nat}
      {role exitRole : Role}
      {stops : List Symbol}
      {exit item : Production .parts}
      {lexeme : Lexeme}
      {rest : List Lexeme}
      {stop reached : Nat}
      (refused : (⟨rest, stop, lexeme.token.stop⟩ : Cursor).symbol ∉ stops) :
      Makes
        ⟨budget, .tail lexeme.symbol role stops exitRole exit item, ⟨lexeme :: rest, stop, reached⟩⟩
        ⟨budget, item, ⟨rest, stop, lexeme.token.stop⟩⟩
  | exit
      {budget : Nat}
      {role exitRole : Role}
      {stops : List Symbol}
      {exit item : Production .parts}
      {lexeme : Lexeme}
      {rest : List Lexeme}
      {stop reached : Nat}
      (chosen : (⟨rest, stop, lexeme.token.stop⟩ : Cursor).symbol ∈ stops) :
      Makes
        ⟨budget, .tail lexeme.symbol role stops exitRole exit item, ⟨lexeme :: rest, stop, reached⟩⟩
        ⟨budget, exit, ⟨rest, stop, lexeme.token.stop⟩⟩
  | again
      {budget : Nat}
      {production : Production .parts}
      {step : Parser (List Tree × Bool)}
      {cursor middle : Cursor}
      {front : List Tree}
      (loop : production.round (Level.parse budget) = some step)
      (asked : step cursor = .ok (front, true) middle) :
      Makes ⟨budget, production, cursor⟩ ⟨budget, production, middle⟩
  | part
      {budget : Nat}
      {role : Role}
      {construct : Production .construct}
      {cursor : Cursor} :
      Makes ⟨budget, .part role construct, cursor⟩ ⟨budget, construct, cursor⟩
  | assemble
      {budget : Nat}
      {assembly : Assembly}
      {parts : Production .parts}
      {cursor : Cursor} :
      Makes ⟨budget, .assemble assembly parts, cursor⟩ ⟨budget, parts, cursor⟩
  | deeper
      {budget : Nat}
      {level : Level}
      {cursor : Cursor} :
      Makes ⟨budget + 1, .deeper level, cursor⟩ ⟨budget, level.production, cursor⟩
  | body
      {budget : Nat}
      {body closing : Production .parts}
      {cursor : Cursor} :
      Makes ⟨budget, .reclaim body closing, cursor⟩ ⟨budget, body, cursor⟩
  | closing
      {budget : Nat}
      {body closing : Production .parts}
      {cursor middle : Cursor}
      {front : List Tree}
      (done : body.run (Level.parse budget) cursor = .ok front middle)
      (kept : middle.symbol = .word .END ∨ Tree.reclaimEnd? front = none) :
      Makes ⟨budget, .reclaim body closing, cursor⟩ ⟨budget, closing, middle⟩

/-- A run has less budget than another one, or the same and a production of a lower rank. -/
def Inner (inner outer : Call) : Prop :=
  inner.budget < outer.budget ∨
    inner.budget = outer.budget ∧ inner.production.rank < outer.production.rank

/-- A run is further in than another one, or it is as far in and has fewer tokens left. -/
def Below (inner outer : Call) : Prop :=
  inner.Inner outer ∨
    inner.budget = outer.budget ∧ inner.production.rank = outer.production.rank ∧
      inner.cursor.rest.length < outer.cursor.rest.length

/-- What a run has left: levels of nesting, the rank of its production, and tokens. -/
def measure (call : Call) : Nat × Nat × Nat :=
  (call.budget, call.production.rank, call.cursor.rest.length)

/-- There is no endless descent. -/
theorem wellFounded_below : WellFounded Below := by
  refine Subrelation.wf ?_ (InvImage.wf measure
    (Prod.lex Nat.lt_wfRel (Prod.lex Nat.lt_wfRel Nat.lt_wfRel)).wf)
  rintro inner outer ((less | ⟨same, lower⟩) | ⟨same, equal, fewer⟩)
  · exact Prod.Lex.left _ _ less
  · exact Prod.lex_def.mpr (.inr ⟨same, Prod.Lex.left _ _ lower⟩)
  · exact Prod.lex_def.mpr (.inr ⟨same, Prod.lex_def.mpr (.inr ⟨equal, fewer⟩)⟩)

variable
  {call outer inner : Call}

/-- What a run makes is further in, or it is another round of a loop. -/
theorem Makes.inner_or_again
    (h : outer.Makes inner) :
    inner.Inner outer ∨
      ∃ budget production step cursor middle front,
        outer = ⟨budget, production, cursor⟩ ∧ inner = ⟨budget, production, middle⟩ ∧
          production.round (Level.parse budget) = some step ∧
            step cursor = .ok (front, true) middle := by
  cases h with
  | again loop asked => exact .inr ⟨_, _, _, _, _, _, rfl, rfl, loop, asked⟩
  | deeper => exact .inl (.inl (Nat.lt_succ_self _))
  | _ =>
    refine .inl (.inr ⟨rfl, ?_⟩)
    simp only [Production.rank]
    omega

/-- What a run without stalling loops makes has none either. -/
theorem Makes.brisk
    (h : outer.Makes inner)
    (brisk : outer.production.Brisk) :
    inner.production.Brisk := by
  intro symbol stalls
  cases h with
  | again => exact brisk symbol stalls
  | deeper => exact Level.brisk_production _ symbol stalls
  | _ =>
    refine brisk symbol ?_
    simp only [Production.stalling, SymbolSet.mem_union]
    simp only [stalls, true_or, or_true]

/-- Whatever is made on the way has no stalling loops. -/
theorem brisk_of_reflTransGen
    (h : Relation.ReflTransGen Makes outer inner)
    (brisk : outer.production.Brisk) :
    inner.production.Brisk := by
  induction h with
  | refl => exact brisk
  | tail _ made ih => exact made.brisk ih

/-- Without stalling loops every run descends. -/
theorem Makes.below
    (h : outer.Makes inner)
    (brisk : outer.production.Brisk) :
    inner.Below outer := by
  rcases h.inner_or_again with further | ⟨_, _, _, _, _, _, rfl, rfl, loop, asked⟩
  · exact .inl further
  · have progress := (Production.round_reads brisk loop asked).resolve_left (by simp)
    exact .inr ⟨rfl, rfl, progress⟩

/-- A run that descends at every step ends. -/
theorem acc_of_brisk
    (brisk : call.production.Brisk) :
    Acc (fun inner outer => outer.Makes inner) call := by
  induction call using wellFounded_below.induction with
  | _ call ih =>
    refine .intro call fun inner made => ?_
    exact ih inner (made.below brisk) (made.brisk brisk)

/-- A construct is further out than everything that is made on the way. -/
theorem inner_of_transGen
    (h : Relation.TransGen Makes outer inner)
    (construct : outer.yield = .construct) :
    inner.Inner outer := by
  induction h with
  | single made =>
    rcases made.inner_or_again with further | ⟨_, _, _, _, _, _, rfl, -⟩
    · exact further
    · cases construct
  | tail _ made ih =>
    rcases made.inner_or_again with further | ⟨_, _, _, _, _, _, rfl, rfl, -⟩
    · unfold Inner at ih further ⊢
      omega
    · exact ih

/-- What it means that a run ends by itself.  There is no endless chain of runs, all of which
descend, and every round of every loop reads a token, except that a loop ends without one.  So no
loop needs a check for progress (`unchecked`). -/
structure Terminates (start : Call) : Prop where
  finite : Acc (fun inner outer => outer.Makes inner) start
  descends : ∀ outer inner, Relation.ReflTransGen Makes start outer → outer.Makes inner →
    inner.Below outer
  rounds : ∀ budget production cursor step trees again after,
    Relation.ReflTransGen Makes start ⟨budget, production, cursor⟩ →
    production.round (Level.parse budget) = some step →
    step cursor = .ok (trees, again) after →
      again = false ∧ trees = [] ∧ after = cursor ∨ after.rest.length < cursor.rest.length
  unchecked : ∀ budget production cursor step,
    Relation.ReflTransGen Makes start ⟨budget, production, cursor⟩ →
    production.round (Level.parse budget) = some step →
      production.run (Level.parse budget) cursor =
        step.andAgain (production.run (Level.parse budget)) cursor

theorem terminates_of_brisk
    (brisk : call.production.Brisk) :
    call.Terminates := by
  refine ⟨acc_of_brisk brisk, ?_, ?_, ?_⟩
  · intro outer inner reached made
    have firm := brisk_of_reflTransGen reached brisk
    exact made.below firm
  · intro budget production cursor step trees again after reached loop done
    have firm := brisk_of_reflTransGen reached brisk
    exact Production.round_reads firm loop done
  · intro budget production cursor step reached loop
    have firm := brisk_of_reflTransGen reached brisk
    exact Production.run_of_brisk firm loop cursor

end Call

namespace Rule

/-- The rules that can succeed without reading a token. -/
def emptiable : List Rule := [statement, statementSequence, declarationSequence, selectors]

/-- No loop of the grammar stalls. -/
theorem brisk_production (rule : Rule) : rule.production.Brisk := by
  have every : ∀ rule ∈ all, rule.production.stalling = ∅ := by decide +kernel
  intro symbol stalls
  exact SymbolSet.not_mem_empty (every rule rule.mem_all ▸ stalls)

/-- All other rules read a token at every symbol. -/
theorem moving_production
    (rule : Rule)
    (other : rule ∉ emptiable) :
    rule.production.moving = .full := by
  have every : ∀ rule ∈ all, rule ∉ emptiable → rule.production.moving = .full := by
    decide +kernel
  exact every rule rule.mem_all other

/-- What it means that a rule makes progress.  The rules that are run on the way have a smaller
budget, or the same and a lower rank, and the rule itself has a smaller one.  It reads a token
whenever it succeeds, unless it is one of those that need not. -/
structure Progresses (rule : Rule) (budget : Nat) (cursor : Cursor) : Prop where
  terminates : Call.Terminates ⟨budget, rule.production, cursor⟩
  recursion : ∀ (other : Rule) budget' cursor',
    Relation.TransGen Call.Makes ⟨budget, rule.production, cursor⟩
      ⟨budget', other.production, cursor'⟩ →
        budget' < budget ∨ budget' = budget ∧ other.production.rank < rule.production.rank
  nested : ∀ budget' cursor',
    Relation.TransGen Call.Makes ⟨budget, rule.production, cursor⟩
      ⟨budget', rule.production, cursor'⟩ → budget' < budget
  reads : rule ∉ emptiable → ∀ tree after, rule.parseWithin budget cursor = .ok tree after →
    after.rest.length < cursor.rest.length

/-- Every rule makes progress from every place and at every depth. -/
theorem progresses (rule : Rule) (budget : Nat) (cursor : Cursor) :
    rule.Progresses budget cursor := by
  have recursion : ∀ (other : Rule) budget' cursor',
      Relation.TransGen Call.Makes ⟨budget, rule.production, cursor⟩
        ⟨budget', other.production, cursor'⟩ →
          budget' < budget ∨ budget' = budget ∧ other.production.rank < rule.production.rank := by
    intro other budget' cursor' made
    exact Call.inner_of_transGen made rfl
  refine ⟨Call.terminates_of_brisk rule.brisk_production, recursion, ?_, ?_⟩
  · intro budget' cursor' made
    rcases recursion rule budget' cursor' made with less | ⟨-, lower⟩
    · exact less
    · exact absurd lower (Nat.lt_irrefl _)
  · intro other tree after parsed
    refine (Production.run_eq_ok_iff.mp parsed).moved ?_
    rw [rule.moving_production other]
    exact SymbolSet.mem_full

end Rule

end Oberon
