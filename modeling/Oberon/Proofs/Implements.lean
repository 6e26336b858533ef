import Oberon.Proofs.Derivation
import Oberon.Proofs.ExpressionGrammar

/-!
# Productions and the forms they implement

A production implements a form if what it reads is a word of the form, and if it reads every word of
the form, provided that one of some symbols follows (`Production.Implements`).  There is a lemma for
each way to build a production.  A choice by the next symbol implements an alternative if the words
of the two forms start differently; where a form may be empty, what follows counts as well.
-/

namespace Oberon

namespace Cursor

/-- The symbols that come next. -/
def symbols (cursor : Cursor) : List Symbol := cursor.rest.map (·.symbol)

theorem symbol_eq_next (cursor : Cursor) : cursor.symbol = Ebnf.next cursor.symbols := by
  cases h : cursor.rest with
  | nil => rw [symbol_of_rest_nil h, symbols, h, List.map_nil, Ebnf.next, List.headD_nil]
  | cons lexeme rest => rw [symbol_of_rest h, symbols, h, List.map_cons, Ebnf.next, List.headD_cons]

theorem exists_of_symbols_cons
    {cursor : Cursor}
    {symbol : Symbol}
    {rest : List Symbol}
    (h : cursor.symbols = symbol :: rest) :
    ∃ lexeme others, cursor = ⟨lexeme :: others, cursor.stop, cursor.reached⟩ ∧
      lexeme.symbol = symbol ∧ others.map (·.symbol) = rest := by
  obtain ⟨lexemes, stop, reached⟩ := cursor
  cases lexemes with
  | nil => cases h
  | cons lexeme others =>
    obtain ⟨same, others'⟩ := List.cons.inj h
    exact ⟨lexeme, others, rfl, same, others'⟩

end Cursor

namespace Production

open Ebnf

/-- With some levels of nesting left, a production reads exactly the words of a form, as far as
they are not too long and one of some symbols follows. -/
structure Implements
    (budget bound : Nat)
    {yield : Yield}
    (production : Production yield)
    (form : Ebnf)
    (follow : List Symbol) : Prop where
  sound : ∀ {cursor after output}, Reads budget production cursor output after →
    ∃ word, cursor.symbols = word ++ after.symbols ∧ form.Derives word
  complete : ∀ (cursor : Cursor) {word rest : List Symbol},
    form.Derives word → word.length ≤ bound →
    cursor.symbols = word ++ rest → next rest ∈ follow →
    ∃ output after, Reads budget production cursor output after ∧ after.symbols = rest

section Implements

variable
  {budget bound : Nat}
  {yield : Yield}
  {production first second : Production yield}
  {form left right : Ebnf}
  {follow : List Symbol}

/-- Fewer symbols may follow. -/
theorem Implements.before
    {follow' : List Symbol}
    (h : Implements budget bound production form follow)
    (fewer : (follow'.all (· ∈ follow)) = true) :
    Implements budget bound production form follow' := by
  refine ⟨h.sound, ?_⟩
  intro cursor word rest derived short split after
  refine h.complete cursor derived short split ?_
  simpa using List.all_eq_true.mp fewer _ after

/-- Forms with the same words are implemented alike. -/
theorem Implements.congr
    {form' : Ebnf}
    (h : Implements budget bound production form follow)
    (same : ∀ word, form.Derives word ↔ form'.Derives word) :
    Implements budget bound production form' follow := by
  refine ⟨?_, ?_⟩
  · intro cursor after output reads
    obtain ⟨word, split, derived⟩ := h.sound reads
    exact ⟨word, split, (same word).mp derived⟩
  · intro cursor word rest derived
    exact h.complete cursor ((same word).mpr derived)

theorem Implements.swap
    (h : Implements budget bound production (.alt left right) follow) :
    Implements budget bound production (.alt right left) follow := by
  refine h.congr ?_
  intro word
  rw [derives_alt_iff, derives_alt_iff, Or.comm]

theorem Reads.derives
    {cursor after : Cursor}
    {output : yield.Output}
    (reads : Reads budget production cursor output after)
    (h : Implements budget bound production form []) :
    ∃ word, cursor.symbols = word ++ after.symbols ∧ form.Derives word :=
  h.sound reads

theorem implements_empty : Implements budget bound .empty .nothing follow := by
  refine ⟨?_, ?_⟩
  · intro cursor after output reads
    cases reads
    exact ⟨[], rfl, .nothing⟩
  · intro cursor word rest derived _ split _
    rw [derives_nothing_iff] at derived
    subst derived
    exact ⟨[], cursor, .empty, split⟩

theorem implements_token
    {role : Role}
    {symbols : List Symbol}
    {reason : Reason} :
    Implements budget bound (.token role symbols reason) (.symbols symbols) follow := by
  refine ⟨?_, ?_⟩
  · intro cursor after output reads
    cases reads with
    | @token _ _ _ _ lexeme _ _ _ fits => exact ⟨[lexeme.symbol], rfl, .symbols fits⟩
  · intro cursor word rest derived _ split _
    obtain ⟨symbol, member, rfl⟩ := derives_symbols_iff.mp derived
    obtain ⟨lexeme, others, standing, same, rest'⟩ := Cursor.exists_of_symbols_cons split
    rw [standing]
    exact ⟨_, _, .token (same ▸ member), rest'⟩

theorem implements_seq
    {first second : Production .parts}
    (front : Implements budget bound first left (right.ahead follow))
    (back : Implements budget bound second right follow) :
    Implements budget bound (.seq first second) (.seq left right) follow := by
  refine ⟨?_, ?_⟩
  · intro cursor after output reads
    cases reads with
    | seq head others =>
      obtain ⟨word, split, derived⟩ := front.sound head
      obtain ⟨word', split', derived'⟩ := back.sound others
      refine ⟨word ++ word', ?_, .seq derived derived'⟩
      rw [split, split', List.append_assoc]
  · intro cursor word rest derived short split after
    obtain ⟨word, word', rfl, derived, derived'⟩ := derives_seq_iff.mp derived
    rw [List.length_append] at short
    rw [List.append_assoc] at split
    obtain ⟨trees, middle, reads, split'⟩ :=
      front.complete cursor derived (by omega) split (derived'.next_mem_ahead after)
    obtain ⟨trees', last, reads', ends⟩ := back.complete middle derived' (by omega) split' after
    exact ⟨_, _, .seq reads reads', ends⟩

theorem Implements.shorter
    (h : Implements budget (bound + 1) production form follow) :
    Implements budget bound production form follow := by
  refine ⟨h.sound, ?_⟩
  intro cursor word rest derived short split after
  exact h.complete cursor derived (Nat.le_succ_of_le short) split after

/-- After a token, words may be shorter by one. -/
theorem implements_token_seq
    {role : Role}
    {symbols : List Symbol}
    {reason : Reason}
    {second : Production .parts}
    (back : Implements budget bound second right follow) :
    Implements budget (bound + 1) (.seq (.token role symbols reason) second)
      (.seq (.symbols symbols) right) follow := by
  refine ⟨(implements_seq implements_token back).sound, ?_⟩
  intro cursor word rest whole short split after
  obtain ⟨front, word, rfl, chosen, derived⟩ := derives_seq_iff.mp whole
  obtain ⟨symbol, member, rfl⟩ := derives_symbols_iff.mp chosen
  rw [List.length_append, List.length_singleton] at short
  rw [List.append_assoc] at split
  obtain ⟨lexeme, others, standing, same, split'⟩ := Cursor.exists_of_symbols_cons split
  obtain ⟨trees, last, reads, ends⟩ := back.complete
    ⟨others, cursor.stop, lexeme.token.stop⟩ derived (by omega) split' after
  rw [standing]
  exact ⟨_, last, .seq (.token (same ▸ member)) reads, ends⟩

/-- The words of the first form start by one of the symbols, those of the second do not. -/
theorem implements_branch
    {starts : List Symbol}
    (chosen : Implements budget bound first left follow)
    (refused : Implements budget bound second right follow)
    (inside : ((left.ahead follow).all (· ∈ starts)) = true)
    (outside : ((right.ahead follow).all (· ∉ starts)) = true) :
    Implements budget bound (.branch starts first second) (.alt left right) follow := by
  refine ⟨?_, ?_⟩
  · intro cursor after output reads
    cases reads with
    | first _ inner =>
      obtain ⟨word, split, derived⟩ := chosen.sound inner
      exact ⟨word, split, .left derived⟩
    | second _ inner =>
      obtain ⟨word, split, derived⟩ := refused.sound inner
      exact ⟨word, split, .right derived⟩
  · intro cursor word rest derived short split after
    rcases derives_alt_iff.mp derived with derived | derived
    · obtain ⟨output, last, reads, ends⟩ := chosen.complete cursor derived short split after
      have next := List.all_eq_true.mp inside _ (derived.next_mem_ahead after)
      rw [← split, ← cursor.symbol_eq_next, decide_eq_true_eq] at next
      exact ⟨output, last, .first next reads, ends⟩
    · obtain ⟨output, last, reads, ends⟩ := refused.complete cursor derived short split after
      have next := List.all_eq_true.mp outside _ (derived.next_mem_ahead after)
      rw [← split, ← cursor.symbol_eq_next, decide_eq_true_eq] at next
      exact ⟨output, last, .second next reads, ends⟩

theorem implements_part
    {role : Role}
    {construct : Production .construct}
    (h : Implements budget bound construct form follow) :
    Implements budget bound (.part role construct) form follow := by
  refine ⟨?_, ?_⟩
  · intro cursor after output reads
    cases reads with
    | part inner => exact h.sound inner
  · intro cursor word rest derived short split after
    obtain ⟨tree, last, reads, ends⟩ := h.complete cursor derived short split after
    exact ⟨_, last, .part reads, ends⟩

theorem implements_assemble
    {assembly : Assembly}
    {parts : Production .parts}
    (h : Implements budget bound parts form follow) :
    Implements budget bound (.assemble assembly parts) form follow := by
  refine ⟨?_, ?_⟩
  · intro cursor after output reads
    cases reads with
    | assemble inner => exact h.sound inner
  · intro cursor word rest derived short split after
    obtain ⟨trees, last, reads, ends⟩ := h.complete cursor derived short split after
    exact ⟨_, last, .assemble reads, ends⟩

theorem implements_fail
    {reason : Reason} :
    Implements budget bound (@Production.fail yield reason) (.symbols []) follow := by
  refine ⟨?_, ?_⟩
  · intro cursor after output reads
    cases reads
  · intro cursor word rest derived
    obtain ⟨symbol, member, -⟩ := derives_symbols_iff.mp derived
    cases member

/-- A list goes on as long as an item starts. -/
theorem implements_many
    {starts : List Symbol}
    {item : Production .parts}
    (items : Implements budget bound item form (form.first ++ follow))
    (filled : form.nullable = false)
    (inside : (form.first.all (· ∈ starts)) = true)
    (outside : (follow.all (· ∉ starts)) = true) :
    Implements budget bound (.many starts item) (.repeated form) follow := by
  refine ⟨?_, ?_⟩
  · intro cursor after output reads
    induction size : cursor.rest.length using Nat.strongRecOn generalizing cursor output with
    | ind size ih =>
      subst size
      cases reads with
      | manyStop => exact ⟨[], rfl, .stop⟩
      | manyStep _ head progress others =>
        obtain ⟨word, split, derived⟩ := items.sound head
        obtain ⟨word', split', derived'⟩ := ih _ progress others rfl
        refine ⟨word ++ word', ?_, .more derived derived'⟩
        rw [split, split', List.append_assoc]
      | manyStall _ head _ =>
        obtain ⟨word, split, derived⟩ := items.sound head
        refine ⟨word, split, ?_⟩
        rw [← List.append_nil word]
        exact .more derived .stop
  · intro cursor word rest derived short split after
    induction derived using repeated_induction generalizing cursor with
    | stop =>
      have refused := List.all_eq_true.mp outside _ after
      rw [List.nil_append] at split
      rw [← split, ← cursor.symbol_eq_next, decide_eq_true_eq] at refused
      exact ⟨[], cursor, .manyStop refused, split⟩
    | more front back derived others ih =>
      rw [List.length_append] at short
      rw [List.append_assoc] at split
      obtain ⟨trees, middle, head, split'⟩ :=
        items.complete cursor derived (by omega) split (others.next_mem_ahead after)
      obtain ⟨trees', last, reads, ends⟩ := ih middle (by omega) split'
      refine ⟨trees ++ trees', last, .manyStep ?_ head ?_ reads, ends⟩
      · rw [cursor.symbol_eq_next, split]
        exact of_decide_eq_true (List.all_eq_true.mp inside _ (derived.next_mem_first filled))
      · have longer := congrArg List.length split
        have shorter := congrArg List.length split'
        have some := List.length_pos_iff.mpr (derived.ne_nil filled)
        simp only [Cursor.symbols, List.length_map, List.length_append] at longer shorter
        omega

section Tail

variable
  {separator : Symbol}
  {role exitRole : Role}
  {stops : List Symbol}
  {exit item : Production .parts}
  {reason : Reason}
  {last : Ebnf}

theorem sound_tail
    {cursor after : Cursor}
    {output : List Tree}
    (items : Implements budget bound item form (separator :: follow))
    (exits : Implements budget bound (.branch stops exit (.fail reason)) last follow)
    (reads : Reads budget (.tail separator role stops exitRole exit item) cursor output after) :
    ∃ word, cursor.symbols = word ++ after.symbols ∧
      Derives
        (.seq (.repeated (.seq (.symbols [separator]) form))
          (.optional (.seq (.symbols [separator]) last)))
        word := by
  induction size : cursor.rest.length using Nat.strongRecOn generalizing cursor output with
  | ind size ih =>
    subst size
    cases reads with
    | tailStop => exact ⟨[], rfl, .seq .stop (.right .nothing)⟩
    | @tailStep _ _ _ _ _ _ lexeme _ _ _ _ _ _ _ _ head others =>
      obtain ⟨word, split, derived⟩ := items.sound head
      have shorter := head.suffix.length_le
      obtain ⟨word', split', derived'⟩ := ih _ (Nat.lt_succ_of_le shorter) others rfl
      obtain ⟨front, back, rfl, steps, exited⟩ := derives_seq_iff.mp derived'
      have step : Derives (.seq (.symbols [lexeme.symbol]) form) (lexeme.symbol :: word) :=
        derives_symbol_seq_iff.mpr ⟨word, rfl, derived⟩
      refine ⟨(lexeme.symbol :: word ++ front) ++ back, ?_, .seq (.more step steps) exited⟩
      have all := congrArg (List.cons lexeme.symbol) split
      simp only [split', ← List.append_assoc] at all
      exact all
    | @tailExit _ _ _ _ _ _ lexeme _ _ _ _ _ chosen exited =>
      obtain ⟨word, split, derived⟩ := exits.sound (.first chosen exited)
      have step : Derives (.seq (.symbols [lexeme.symbol]) last) (lexeme.symbol :: word) :=
        derives_symbol_seq_iff.mpr ⟨word, rfl, derived⟩
      exact ⟨lexeme.symbol :: word, congrArg (List.cons lexeme.symbol) split,
        .seq .stop (.left step)⟩

/-- A separator that is not followed by an item is followed by the exit, or there is none. -/
theorem complete_tail_exit
    (exits : Implements budget bound (.branch stops exit (.fail reason)) last follow)
    (apart : (follow.all (· ≠ separator)) = true)
    (cursor : Cursor)
    {word rest : List Symbol}
    (exited : Derives (.optional (.seq (.symbols [separator]) last)) word)
    (short : word.length ≤ bound)
    (split : cursor.symbols = word ++ rest)
    (after : next rest ∈ follow) :
    ∃ output ending,
      Reads budget (.tail separator role stops exitRole exit item) cursor output ending ∧
        ending.symbols = rest := by
  rcases derives_alt_iff.mp exited with exited | none
  · obtain ⟨word, rfl, derived⟩ := derives_symbol_seq_iff.mp exited
    obtain ⟨lexeme, others, standing, same, split'⟩ := Cursor.exists_of_symbols_cons split
    subst same
    rw [List.length_cons] at short
    obtain ⟨trees, ending, reads, ends⟩ := exits.complete
      ⟨others, cursor.stop, lexeme.token.stop⟩ derived (by omega) split' after
    rw [standing]
    cases reads with
    | first chosen inner => exact ⟨_, ending, .tailExit chosen inner, ends⟩
    | second _ inner => cases inner
  · obtain rfl := derives_nothing_iff.mp none
    have other := List.all_eq_true.mp apart _ after
    rw [List.nil_append] at split
    rw [← split, ← cursor.symbol_eq_next, decide_eq_true_eq] at other
    exact ⟨[], cursor, .tailStop other, split⟩

/-- Separators and items, and in the end perhaps a separator and an exit. -/
theorem implements_tail
    (items : Implements budget bound item form (separator :: follow))
    (exits : Implements budget bound (.branch stops exit (.fail reason)) last follow)
    (outside : ((form.ahead (separator :: follow)).all (· ∉ stops)) = true)
    (apart : (follow.all (· ≠ separator)) = true) :
    Implements budget bound (.tail separator role stops exitRole exit item)
      (.seq (.repeated (.seq (.symbols [separator]) form))
        (.optional (.seq (.symbols [separator]) last)))
      follow := by
  refine ⟨sound_tail items exits, ?_⟩
  intro cursor word rest derived short split after
  obtain ⟨steps, final, rfl, listed, exited⟩ := derives_seq_iff.mp derived
  clear derived
  induction listed using repeated_induction generalizing cursor with
  | stop =>
    rw [List.nil_append] at short split
    exact complete_tail_exit exits apart cursor exited short split after
  | more front back joined others ih =>
    obtain ⟨word, rfl, derived⟩ := derives_symbol_seq_iff.mp joined
    simp only [List.append_assoc, List.cons_append, List.length_append, List.length_cons]
      at short split ih
    obtain ⟨lexeme, more, standing, same, split'⟩ := Cursor.exists_of_symbols_cons split
    subst same
    have next : next (back ++ (final ++ rest)) ∈ lexeme.symbol :: follow := by
      have listed := (Derives.seq others exited).next_mem_ahead after
      rw [List.append_assoc] at listed
      simpa [ahead, Ebnf.first, nullable, Ebnf.optional] using listed
    obtain ⟨trees, middle, reads, split''⟩ := items.complete
      ⟨more, cursor.stop, lexeme.token.stop⟩ derived (by omega) split' next
    obtain ⟨trees', ending, reads', ends⟩ := ih middle (by omega) split''
    rw [standing]
    refine ⟨_, ending, .tailStep ?_ reads reads', ends⟩
    have refused := List.all_eq_true.mp outside _ (derived.next_mem_ahead next)
    rw [decide_eq_true_eq, ← split'] at refused
    rw [Cursor.symbol_eq_next]
    exact refused

end Tail

/-- One or more items with separators between them. -/
theorem implements_sepBy
    {separator : Symbol}
    {item : Production .parts}
    (items : Implements budget bound item form (separator :: follow))
    (apart : (follow.all (· ≠ separator)) = true) :
    Implements budget bound (sepBy separator item)
      (.seq form (.repeated (.seq (.symbols [separator]) form))) follow := by
  -- there is no exit, and so no separator at the end
  have exits : Implements budget bound (.branch [] .empty (.fail (.missing separator "list")))
      (.symbols []) follow := by
    refine ⟨?_, ?_⟩
    · intro cursor after output reads
      cases reads with
      | first chosen _ => cases chosen
      | second _ inner => cases inner
    · intro cursor word rest derived
      obtain ⟨symbol, member, -⟩ := derives_symbols_iff.mp derived
      cases member
  have steps :=
    @implements_tail _ _ _ _ _ .separator .separator _ _ _ _ _ items exits (by simp) apart
  refine (implements_seq (items.before ?_) steps).congr ?_
  · simp only [ahead, Ebnf.first, nullable, Ebnf.optional, List.all_eq_true]
    intro symbol
    simp +contextual
  · intro word
    simp [Ebnf.optional]

/-- Nothing may be left out after a form. -/
theorem Implements.single
    (h : Implements budget bound production (.seq form .nothing) follow) :
    Implements budget bound production form follow := by
  refine h.congr ?_
  intro word
  simp

theorem Implements.rule
    {name : Nonterminal}
    (h : Implements budget bound production name.definition follow) :
    Implements budget bound production (.rule name) follow :=
  h.congr fun _ => derives_rule_iff.symm

end Implements

/-- A production reads from a place to one where the symbols that come next are as they should
be. -/
def ReadsTo
    (budget : Nat)
    {yield : Yield}
    (production : Production yield)
    (cursor : Cursor)
    (goal : List Symbol → Prop) : Prop :=
  ∃ output after, Reads budget production cursor output after ∧ goal after.symbols

namespace ReadsTo

variable
  {budget : Nat}
  {yield : Yield}
  {production chosen refused : Production yield}
  {cursor : Cursor}
  {goal goal' : List Symbol → Prop}

theorem mono
    (h : ReadsTo budget production cursor goal)
    (weaker : ∀ symbols, goal symbols → goal' symbols) :
    ReadsTo budget production cursor goal' := by
  obtain ⟨output, after, reads, reached⟩ := h
  exact ⟨output, after, reads, weaker _ reached⟩

theorem empty
    (h : goal cursor.symbols) :
    ReadsTo budget .empty cursor goal :=
  ⟨[], cursor, .empty, h⟩

theorem token
    {role : Role}
    {symbols rest : List Symbol}
    {reason : Reason}
    {symbol : Symbol}
    (split : cursor.symbols = symbol :: rest)
    (member : symbol ∈ symbols)
    (h : goal rest) :
    ReadsTo budget (.token role symbols reason) cursor goal := by
  obtain ⟨lexeme, others, standing, same, rest'⟩ := Cursor.exists_of_symbols_cons split
  rw [standing]
  refine ⟨_, _, .token (same ▸ member), ?_⟩
  rw [Cursor.symbols, rest']
  exact h

theorem seq
    {first second : Production .parts}
    (front : ReadsTo budget first cursor goal)
    (back : ∀ middle : Cursor, goal middle.symbols → ReadsTo budget second middle goal') :
    ReadsTo budget (.seq first second) cursor goal' := by
  obtain ⟨trees, middle, reads, reached⟩ := front
  obtain ⟨trees', last, reads', ends⟩ := back middle reached
  exact ⟨_, last, .seq reads reads', ends⟩

theorem first
    {starts : List Symbol}
    (inside : cursor.symbol ∈ starts)
    (h : ReadsTo budget chosen cursor goal) :
    ReadsTo budget (.branch starts chosen refused) cursor goal := by
  obtain ⟨output, after, reads, reached⟩ := h
  exact ⟨output, after, .first inside reads, reached⟩

theorem second
    {starts : List Symbol}
    (outside : cursor.symbol ∉ starts)
    (h : ReadsTo budget refused cursor goal) :
    ReadsTo budget (.branch starts chosen refused) cursor goal := by
  obtain ⟨output, after, reads, reached⟩ := h
  exact ⟨output, after, .second outside reads, reached⟩

/-- The alternative at an index is taken if the next symbol starts it and none before it. -/
theorem choose
    {alternatives : List (List Symbol × Production yield)}
    {otherwise : Production yield}
    {first starts : List Symbol}
    (index : Nat)
    (member : cursor.symbol ∈ first)
    (found : alternatives[index]? = some (starts, production))
    (inside : (first.all (· ∈ starts)) = true)
    (outside : ((alternatives.take index).all fun other => first.all (· ∉ other.1)) = true)
    (h : ReadsTo budget production cursor goal) :
    ReadsTo budget (Production.choose alternatives otherwise) cursor goal := by
  induction alternatives generalizing index with
  | nil => cases found
  | cons alternative alternatives ih =>
    cases index with
    | zero =>
      obtain rfl := Option.some.inj found
      exact .first (of_decide_eq_true (List.all_eq_true.mp inside _ member)) h
    | succ index =>
      rw [List.take_succ_cons, List.all_cons, Bool.and_eq_true] at outside
      refine .second (of_decide_eq_true (List.all_eq_true.mp outside.1 _ member)) ?_
      exact ih index found outside.2

theorem part
    {role : Role}
    {construct : Production .construct}
    (h : ReadsTo budget construct cursor goal) :
    ReadsTo budget (.part role construct) cursor goal := by
  obtain ⟨tree, after, reads, reached⟩ := h
  exact ⟨_, after, .part reads, reached⟩

theorem assemble
    {assembly : Assembly}
    {parts : Production .parts}
    (h : ReadsTo budget parts cursor goal) :
    ReadsTo budget (.assemble assembly parts) cursor goal := by
  obtain ⟨trees, after, reads, reached⟩ := h
  exact ⟨_, after, .assemble reads, reached⟩

theorem deeper
    {level : Level}
    (h : ReadsTo budget level.production cursor goal) :
    ReadsTo (budget + 1) (.deeper level) cursor goal := by
  obtain ⟨tree, after, reads, reached⟩ := h
  exact ⟨tree, after, .deeper reads, reached⟩

end ReadsTo

theorem Reads.of_branch
    {budget : Nat}
    {yield : Yield}
    {starts : List Symbol}
    {first second : Production yield}
    {cursor after : Cursor}
    {output : yield.Output}
    (h : Reads budget (.branch starts first second) cursor output after) :
    (cursor.symbol ∈ starts ∧ Reads budget first cursor output after) ∨
      (cursor.symbol ∉ starts ∧ Reads budget second cursor output after) := by
  cases h with
  | first chosen inner => exact .inl ⟨chosen, inner⟩
  | second refused inner => exact .inr ⟨refused, inner⟩

end Production

end Oberon
