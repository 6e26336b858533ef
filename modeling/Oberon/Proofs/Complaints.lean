import Oberon.Proofs.Agreement

/-!
# What the parser complains about

Why a token is refused is written in the grammar: a production has the reasons that it can give by
itself, and a construct one level deeper those of its own production and the nesting limit.  Parsing
a module gives no others, except that something may follow the module.

Since the grammar is finite, a test of reasons can be made on all of them (`Production.gives`).  A
reason for which a source is refused passes every test that those of the grammar pass
(`Parsed.reason_of_gives`).
-/

namespace Oberon

namespace Parser

variable
  {α β : Type}
  {allowed : Reason → Bool}

/-- A parser that fails does so for an allowed reason. -/
def Complains (allowed : Reason → Bool) (parser : Parser α) : Prop :=
  ∀ cursor violation after, parser cursor = .error violation after →
    allowed violation.reason = true

theorem complains_pure
    (value : α) :
    Complains allowed (pure value : Parser α) :=
  fun _ _ _ failed => absurd failed (pure_ne_error value)

theorem complains_get : Complains allowed (get : Parser Cursor) :=
  fun _ _ _ failed => absurd failed get_ne_error

theorem complains_peek : Complains allowed peek := by
  intro cursor violation after failed
  cases failed

theorem complains_fail
    {reason : Reason}
    (own : allowed reason = true) :
    Complains allowed (fail reason : Parser α) := by
  intro cursor violation after failed
  cases failed
  exact own

theorem complains_token
    {test : Symbol → Bool}
    {reason : Reason}
    (own : allowed reason = true) :
    Complains allowed (token test reason) := by
  intro cursor violation after failed
  obtain ⟨rfl, -⟩ := token_eq_error_iff.mp failed
  exact own

theorem complains_bind
    {first : Parser α}
    {next : α → Parser β}
    (head : Complains allowed first)
    (rest : ∀ value, Complains allowed (next value)) :
    Complains allowed (first >>= next) := by
  intro cursor violation after failed
  rcases bind_eq_error_iff.mp failed with early | ⟨value, middle, -, late⟩
  · exact head cursor violation after early
  · exact rest value middle violation after late

theorem complains_iterate
    {step : Parser (List α × Bool)}
    (steps : Complains allowed step) :
    Complains allowed (iterate step) := by
  intro cursor violation after failed
  induction size : cursor.rest.length using Nat.strongRecOn generalizing cursor with
  | ind size ih =>
    subst size
    rw [iterate] at failed
    cases found : step cursor with
    | error other stop =>
      rw [found] at failed
      cases failed
      exact steps cursor violation after found
    | ok pair stop =>
      obtain ⟨done, again⟩ := pair
      rw [found] at failed
      simp only at failed
      split at failed
      · rename_i progress
        cases later : iterate step stop with
        | error other last =>
          rw [later] at failed
          cases failed
          exact ih _ progress.2 stop later rfl
        | ok more last =>
          rw [later] at failed
          cases failed
      · cases failed

end Parser

namespace Production

open Oberon.Parser

/-- True if all the reasons that a production gives for refusing a token are allowed, without those
of the constructs one level deeper. -/
def gives (allowed : Reason → Bool) : {yield : Yield} → Production yield → Bool
  | _, .empty => true
  | _, .token _ _ reason => allowed reason
  | _, .gap _ => true
  | _, .fail reason => allowed reason
  | _, .seq first second => first.gives allowed && second.gives allowed
  | _, .branch _ first second => first.gives allowed && second.gives allowed
  | _, .many _ item => item.gives allowed
  | _, .tail separator _ _ _ exit item =>
    allowed (.missing separator "list") && (exit.gives allowed && item.gives allowed)
  | _, .part _ construct => construct.gives allowed
  | _, .assemble _ parts => parts.gives allowed
  | _, .deeper _ => true
  | _, .reclaim body closing => body.gives allowed && closing.gives allowed

/-- A production that fails has one of its own reasons, unless a construct one level deeper has
failed. -/
theorem complains_run
    {allowed : Reason → Bool}
    {below : Level → Parser Tree}
    (levels : ∀ level, Complains allowed (below level))
    {yield : Yield}
    {production : Production yield}
    (own : production.gives allowed = true) :
    Complains allowed (production.run below) := by
  induction production with
  | empty => exact complains_pure _
  | token role symbols reason =>
    exact complains_bind (complains_token own) fun lexeme => complains_pure _
  | gap role => exact complains_pure _
  | fail reason => exact complains_fail own
  | seq first second left right =>
    obtain ⟨head, others⟩ := Bool.and_eq_true_iff.mp own
    exact complains_bind (left head) fun front => complains_bind (right others) fun back =>
      complains_pure _
  | branch starts first second left right =>
    obtain ⟨one, other⟩ := Bool.and_eq_true_iff.mp own
    refine complains_bind complains_peek fun symbol => ?_
    split
    · exact left one
    · exact right other
  | many starts item ih =>
    refine complains_iterate (complains_bind complains_peek fun symbol => ?_)
    split
    · exact complains_bind (ih own) fun trees => complains_pure _
    · exact complains_pure _
  | tail separator role stops exitRole exit item exits items =>
    obtain ⟨separates, others⟩ := Bool.and_eq_true_iff.mp own
    obtain ⟨out, more⟩ := Bool.and_eq_true_iff.mp others
    refine complains_iterate (complains_bind complains_peek fun symbol => ?_)
    split
    · refine complains_bind (complains_token separates) fun lexeme =>
        complains_bind complains_peek fun symbol => ?_
      split
      · exact complains_bind (exits out) fun trees => complains_pure _
      · exact complains_bind (items more) fun trees => complains_pure _
    · exact complains_pure _
  | part role construct ih => exact complains_bind (ih own) fun tree => complains_pure _
  | assemble assembly parts ih =>
    exact complains_bind complains_get fun cursor => complains_bind (ih own) fun trees =>
      complains_bind complains_get fun after => complains_pure _
  | deeper level => exact levels level
  | reclaim body closing inner last =>
    obtain ⟨head, others⟩ := Bool.and_eq_true_iff.mp own
    refine complains_bind (inner head) fun trees => complains_bind complains_peek fun symbol => ?_
    cases (if symbol = .word .END then none else Tree.reclaimEnd? trees) with
    | some reclaimed => exact complains_pure _
    | none => exact complains_bind (last others) fun back => complains_pure _

end Production

/-- All the reasons for which a construct of the grammar is refused are allowed. -/
structure Grammar.Gives (allowed : Reason → Bool) : Prop where
  rules : ∀ rule : Rule, rule.production.gives allowed = true
  levels : ∀ level : Level, level.production.gives allowed = true
  depth : ∀ level : Level, allowed (.tooDeep level.rule) = true
  finish : allowed (.missing .endOfFile "end of input") = true

variable
  {allowed : Reason → Bool}

theorem Level.complains_parse
    (own : Grammar.Gives allowed)
    (budget : Nat)
    (level : Level) :
    Parser.Complains allowed (Level.parse budget level) := by
  induction budget generalizing level with
  | zero => exact Parser.complains_fail (own.depth level)
  | succ budget ih => exact Production.complains_run ih (own.levels level)

theorem Rule.complains_parseWithin
    (own : Grammar.Gives allowed)
    (budget : Nat)
    (rule : Rule) :
    Parser.Complains allowed (rule.parseWithin budget) :=
  Production.complains_run (Level.complains_parse own budget) (own.rules rule)

theorem Parser.complains_finish
    (own : Grammar.Gives allowed) :
    Complains allowed finish := by
  rintro ⟨rest, stop, reached⟩ violation after failed
  cases rest with
  | nil => cases failed
  | cons lexeme rest =>
    cases failed
    exact own.finish

/-- A source is refused for one of the reasons that the grammar gives. -/
theorem Parsed.reason_of_gives
    {stream : TokenStream}
    {violation : Violation}
    (own : Grammar.Gives allowed)
    (refused : (Parsed.ofStream stream).result = .error violation) :
    allowed violation.reason = true := by
  have complains : Parser.Complains allowed parseModule :=
    Parser.complains_bind (Rule.complains_parseWithin own _ _) fun tree =>
      Parser.complains_bind (Parser.complains_finish own) fun _ => Parser.complains_pure _
  obtain ⟨after, failed⟩ := exists_of_result_eq_error refused
  exact complains _ _ _ failed

end Oberon
