import Oberon.Proofs.Nesting

/-!
# Counting levels

Instead of handing down how many levels of nesting are left, a parser can count those that are open.
It opens a level before each factor, statement, type and sequence of declarations, gives up if the
limit is reached, and closes the level afterwards, whether the construct could be parsed or not
(`Counter.nested`).  The count is part of the state, so a level left open would be seen by
everything that is parsed later.

No level is left open: a counting parser gives the result of the parser that has as many levels left
as the limit allows at the current depth, and ends at the same place and at the depth at which it
began (`Rule.counts_parse`).
-/

namespace Oberon

/-- A place in a stream, and how many levels are open there. -/
structure Gauge where
  cursor : Cursor
  depth : Nat
  deriving DecidableEq, Repr

/-- A parser that counts the levels it opens and closes. -/
abbrev Counter (α : Type) := EStateM Violation Gauge α

namespace Counter

variable {α β : Type}

/-- What a parser comes to, at some depth. -/
def atDepth (depth : Nat) :
    EStateM.Result Violation Cursor α → EStateM.Result Violation Gauge α
  | .ok value after => .ok value ⟨after, depth⟩
  | .error violation after => .error violation ⟨after, depth⟩

/-- A parser that leaves the levels alone. -/
def lift (parser : Parser α) : Counter α := fun gauge => atDepth gauge.depth (parser gauge.cursor)

/-- Opens a level, unless the limit is reached. -/
def enter (rule : String) : Counter Unit := fun gauge =>
  if maxNesting ≤ gauge.depth then .error ⟨gauge.cursor.token, .tooDeep rule⟩ gauge
  else .ok () ⟨gauge.cursor, gauge.depth + 1⟩

/-- Closes a level. -/
def leave (gauge : Gauge) : Gauge := ⟨gauge.cursor, gauge.depth - 1⟩

/-- Parses one level deeper.  The level is closed on failure, too. -/
def nested (rule : String) (inner : Counter α) : Counter α := fun gauge =>
  match enter rule gauge with
  | .error violation after => .error violation after
  | .ok () opened =>
    match inner opened with
    | .ok value after => .ok value (leave after)
    | .error violation after => .error violation (leave after)

/-- Repeats a step as `Parser.iterate` does. -/
def iterate (step : Counter (List α × Bool)) : Counter (List α) := fun gauge =>
  match step gauge with
  | .error violation after => .error violation after
  | .ok (done, again) after =>
    if again = true ∧ after.cursor.rest.length < gauge.cursor.rest.length then
      match iterate step after with
      | .error violation last => .error violation last
      | .ok more last => .ok (done ++ more) last
    else
      .ok done after
termination_by gauge => gauge.cursor.rest.length

end Counter

namespace Production

open Counter

/-- Parses according to a production, counting levels. -/
def count (below : Level → Counter Tree) :
    {yield : Yield} → Production yield → Counter yield.Output
  | _, .empty => pure []
  | _, .token role symbols reason =>
    return [.leaf role (← lift (Parser.token (· ∈ symbols) reason))]
  | _, .gap role => pure [.missing role]
  | _, .fail reason => lift (Parser.fail reason)
  | _, .seq first second => return (← first.count below) ++ (← second.count below)
  | _, .branch starts first second => do
    if (← lift Parser.peek) ∈ starts then first.count below else second.count below
  | _, .many starts item =>
    Counter.iterate do
      if (← lift Parser.peek) ∈ starts then return (← item.count below, true)
      else return ([], false)
  | _, .tail separator role stops exitRole exit item =>
    Counter.iterate do
      if (← lift Parser.peek) = separator then
        let lexeme ← lift (Parser.token (· = separator) (.missing separator "list"))
        if (← lift Parser.peek) ∈ stops then
          return (.leaf exitRole lexeme :: (← exit.count below), false)
        else
          return (.leaf role lexeme :: (← item.count below), true)
      else
        return ([], false)
  | _, .part role construct => return [(← construct.count below).withRole role]
  | _, .assemble assembly parts => do
    let start := (← get).cursor.start
    let trees ← parts.count below
    return .assemble assembly ((← get).cursor.spanFrom start) trees
  | _, .deeper level => below level
  | _, .reclaim body closing => do
    let trees ← body.count below
    match if (← lift Parser.peek) = .word .END then none else Tree.reclaimEnd? trees with
    | some trees => return trees
    | none => return trees ++ (← closing.count below)

end Production

/-- Parses a construct of a level.  How many calls there may be within each other is only a bound on
the recursion: with enough of them, the limit of nesting is reached before. -/
def Level.count : (calls : Nat) → Level → Counter Tree
  | 0, level => Counter.nested level.rule (Counter.lift (Parser.fail (.tooDeep level.rule)))
  | calls + 1, level => Counter.nested level.rule (level.production.count (count calls))

/-- Parses a construct, counting levels. -/
def Rule.count (calls : Nat) (rule : Rule) : Counter Tree :=
  rule.production.count (Level.count calls)

namespace Counter

variable
  {α β : Type}
  {depth : Nat}

/-- From a depth, a counter gives the same result as a parser and returns to the depth. -/
def Counts (counter : Counter α) (parser : Parser α) (depth : Nat) : Prop :=
  ∀ cursor, counter ⟨cursor, depth⟩ = atDepth depth (parser cursor)

theorem counts_lift (parser : Parser α) (depth : Nat) : Counts (lift parser) parser depth :=
  fun _ => rfl

theorem counts_pure (value : α) (depth : Nat) : Counts (pure value) (pure value) depth :=
  fun _ => rfl

theorem counts_bind
    {first : Counter α}
    {first' : Parser α}
    {next : α → Counter β}
    {next' : α → Parser β}
    (head : Counts first first' depth)
    (rest : ∀ value, Counts (next value) (next' value) depth) :
    Counts (first >>= next) (first' >>= next') depth := by
  intro cursor
  simp only [bind, EStateM.bind, head cursor]
  cases first' cursor with
  | ok value middle => exact rest value middle
  | error violation after => rfl

theorem counts_get_bind
    {next : Gauge → Counter β}
    {next' : Cursor → Parser β}
    (rest : ∀ cursor, Counts (next ⟨cursor, depth⟩) (next' cursor) depth) :
    Counts (get >>= next) (get >>= next') depth :=
  fun cursor => rest cursor cursor

theorem counts_iterate
    {step : Counter (List α × Bool)}
    {step' : Parser (List α × Bool)}
    (steps : Counts step step' depth) :
    Counts (iterate step) (Parser.iterate step') depth := by
  intro cursor
  induction size : cursor.rest.length using Nat.strongRecOn generalizing cursor with
  | ind size ih =>
    subst size
    rw [iterate, Parser.iterate, steps cursor]
    cases step' cursor with
    | error violation after => rfl
    | ok pair after =>
      obtain ⟨done, again⟩ := pair
      by_cases goes : again = true ∧ after.rest.length < cursor.rest.length
      · simp only [atDepth, if_pos goes, ih _ goes.2 after rfl]
        cases Parser.iterate step' after <;> rfl
      · simp only [atDepth, if_neg goes]

/-- At the limit, no level can be opened. -/
theorem counts_nested_of_le
    {rule : String}
    {inner : Counter α}
    (reached : maxNesting ≤ depth) :
    Counts (nested rule inner) (Parser.fail (.tooDeep rule)) depth := by
  intro cursor
  simp only [nested, enter, if_pos reached]
  rfl

/-- A level that has been opened is closed again, whatever happens within it. -/
theorem counts_nested_of_lt
    {rule : String}
    {inner : Counter α}
    {parser : Parser α}
    (below : depth < maxNesting)
    (deeper : Counts inner parser (depth + 1)) :
    Counts (nested rule inner) parser depth := by
  intro cursor
  simp only [nested, enter, if_neg (Nat.not_le.mpr below), deeper cursor]
  cases parser cursor <;> rfl

end Counter

namespace Production

open Counter

/-- If levels are counted one level deeper, then so they are in a production. -/
theorem counts_run
    {depth : Nat}
    {below : Level → Counter Tree}
    {below' : Level → Parser Tree}
    (levels : ∀ level, Counts (below level) (below' level) depth)
    {yield : Yield}
    (production : Production yield) :
    Counts (production.count below) (production.run below') depth := by
  have peek := counts_lift Parser.peek depth
  induction production with
  | empty => exact counts_pure _ depth
  | token role symbols reason =>
    exact counts_bind (counts_lift _ depth) fun lexeme => counts_pure _ depth
  | gap role => exact counts_pure _ depth
  | fail reason => exact counts_lift _ depth
  | seq first second left right =>
    exact counts_bind left fun front => counts_bind right fun back => counts_pure _ depth
  | branch starts first second left right =>
    refine counts_bind peek fun symbol => ?_
    split
    · exact left
    · exact right
  | many starts item ih =>
    refine counts_iterate (counts_bind peek fun symbol => ?_)
    split
    · exact counts_bind ih fun trees => counts_pure _ depth
    · exact counts_pure _ depth
  | tail separator role stops exitRole exit item exits items =>
    refine counts_iterate (counts_bind peek fun symbol => ?_)
    split
    · refine counts_bind (counts_lift _ depth) fun lexeme => counts_bind peek fun symbol => ?_
      split
      · exact counts_bind exits fun trees => counts_pure _ depth
      · exact counts_bind items fun trees => counts_pure _ depth
    · exact counts_pure _ depth
  | part role construct ih => exact counts_bind ih fun tree => counts_pure _ depth
  | assemble assembly parts ih =>
    refine counts_get_bind fun cursor => counts_bind ih fun trees => ?_
    exact counts_get_bind fun after => counts_pure _ depth
  | deeper level => exact levels level
  | reclaim body closing inner last =>
    refine counts_bind inner fun trees => counts_bind peek fun symbol => ?_
    cases (if symbol = .word .END then none else Tree.reclaimEnd? trees) with
    | some reclaimed => exact counts_pure _ depth
    | none => exact counts_bind last fun back => counts_pure _ depth

end Production

/-- Counting the open levels comes to the same as handing down how many are left. -/
theorem Level.counts_parse
    {calls depth : Nat}
    (enough : maxNesting ≤ depth + calls)
    (level : Level) :
    Counter.Counts (Level.count calls level) (Level.parse (maxNesting - depth) level) depth := by
  induction calls generalizing depth level with
  | zero =>
    have reached : maxNesting ≤ depth := enough
    rw [Nat.sub_eq_zero_of_le reached]
    exact Counter.counts_nested_of_le reached
  | succ calls ih =>
    rcases Nat.lt_or_ge depth maxNesting with below | reached
    · have left : maxNesting - depth = maxNesting - (depth + 1) + 1 := by omega
      rw [left]
      exact Counter.counts_nested_of_lt below
        (Production.counts_run (ih (by omega)) level.production)
    · rw [Nat.sub_eq_zero_of_le reached]
      exact Counter.counts_nested_of_le reached

/-- A rule that counts the levels it opens closes all of them. -/
theorem Rule.counts_parse
    {calls depth : Nat}
    (enough : maxNesting ≤ depth + calls)
    (rule : Rule) :
    Counter.Counts (rule.count calls) (rule.parseWithin (maxNesting - depth)) depth :=
  Production.counts_run (Level.counts_parse enough) rule.production

end Oberon
