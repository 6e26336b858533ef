import Oberon.Proofs.Derivation
import Oberon.Tree.Walk

/-!
# The end of a record

`OBJECT` as the type of the last field of a record is read as an object type with a body, which
takes the `END` of the record for its own.  The record takes that `END` back, and the object type
becomes the generic one, unless a semicolon comes next: it is read as the one after the field, and
the `END` stays with the object (`Rule.recordType_takesEnd_iff`).  A record in a declaration is
always followed by a semicolon, so there it has no `END` left, and fails unless another field or
another `END` happens to come next (`Rule.recordType_fails_of_semicolon`).

`FieldsRead` says which fields come before the last one.  They are any fields that the parser reads,
so what is shown for the loop over the fields is that it passes them one by one
(`FieldsRead.reads_many_iff`).
-/

namespace Oberon

namespace Production

variable
  {budget : Nat}
  {cursor middle after : Cursor}
  {front output : List Tree}

theorem reads_seq_iff
    {first second : Production .parts}
    (left : Reads budget first cursor front middle) :
    Reads budget (.seq first second) cursor output after ↔
      ∃ back, Reads budget second middle back after ∧ output = front ++ back := by
  constructor
  · intro h
    cases h with
    | seq other right =>
      obtain ⟨rfl, rfl⟩ := left.deterministic other
      exact ⟨_, right, rfl⟩
  · rintro ⟨back, right, rfl⟩
    exact .seq left right

theorem reads_seq_empty_iff
    {first : Production .parts} :
    Reads budget (.seq first .empty) cursor output after ↔
      Reads budget first cursor output after := by
  constructor
  · intro h
    cases h with
    | seq left right =>
      cases right
      rwa [List.append_nil]
  · intro h
    rw [← List.append_nil output]
    exact .seq h .empty

theorem reads_many_iff
    {starts : List Symbol}
    {item : Production .parts}
    (chosen : cursor.symbol ∈ starts)
    (head : Reads budget item cursor front middle)
    (progress : middle.rest.length < cursor.rest.length) :
    Reads budget (.many starts item) cursor output after ↔
      ∃ back, Reads budget (.many starts item) middle back after ∧ output = front ++ back := by
  constructor
  · intro h
    cases h with
    | manyStop refused => exact absurd chosen refused
    | manyStep _ other _ others =>
      obtain ⟨rfl, rfl⟩ := head.deterministic other
      exact ⟨_, others, rfl⟩
    | manyStall _ other stall =>
      obtain ⟨rfl, rfl⟩ := head.deterministic other
      exact absurd progress stall
  · rintro ⟨back, others, rfl⟩
    exact .manyStep chosen head progress others

theorem Reads.token_seq
    {role : Role}
    {symbols : List Symbol}
    {reason : Reason}
    {second : Production .parts}
    {lexeme : Lexeme}
    {rest : List Lexeme}
    {stop reached : Nat}
    (fits : lexeme.symbol ∈ symbols)
    (right : Reads budget second ⟨rest, stop, lexeme.token.stop⟩ output after) :
    Reads budget (.seq (.token role symbols reason) second) ⟨lexeme :: rest, stop, reached⟩
      (.leaf role lexeme :: output) after :=
  .seq (.token fits) right

theorem Reads.part_seq
    {role : Role}
    {construct : Production .construct}
    {second : Production .parts}
    {tree : Tree}
    (inner : Reads budget construct cursor tree middle)
    (right : Reads budget second middle output after) :
    Reads budget (.seq (.part role construct) second) cursor (tree.withRole role :: output) after :=
  .seq (.part inner) right

theorem Reads.skip_seq
    {starts : List Symbol}
    {first second : Production .parts}
    (refused : cursor.symbol ∉ starts)
    (right : Reads budget second cursor output after) :
    Reads budget (.seq (optional starts first) second) cursor output after :=
  .seq (.second refused .empty) right

/-- Whether a production always begins with a token of a symbol. -/
def opensWith (symbol : Symbol) : {yield : Yield} → Production yield → Bool
  | _, .token _ symbols _ => symbols == [symbol]
  | _, .seq first _ => first.opensWith symbol
  | _, .part _ construct => construct.opensWith symbol
  | _, .assemble _ parts => parts.opensWith symbol
  | _, _ => false

theorem Reads.opensWith
    {yield : Yield}
    {production : Production yield}
    {tree : yield.Output}
    (symbol : Symbol)
    (h : Reads budget production cursor tree after)
    (opens : production.opensWith symbol = true) :
    cursor.symbol = symbol ∧ after.rest.length < cursor.rest.length := by
  induction h with
  | token fits =>
    simp only [Production.opensWith, beq_iff_eq] at opens
    subst opens
    exact ⟨(Cursor.symbol_of_rest rfl).trans (List.mem_singleton.mp fits), by simp⟩
  | seq _ right ih _ =>
    have opened := ih opens
    have shorter := right.suffix.length_le
    exact ⟨opened.1, by omega⟩
  | part _ ih => exact ih opens
  | assemble _ ih => exact ih opens
  | _ => cases opens

end Production

open Production Grammar

/-- Fields of a record that the parser reads one after the other, each with or without a semicolon
after it. -/
inductive FieldsRead (budget : Nat) : Cursor → List Tree → Cursor → Prop
  | none
      {cursor : Cursor} :
      FieldsRead budget cursor [] cursor
  | terminated
      {cursor after : Cursor}
      {field : Tree}
      {semicolon : Lexeme}
      {rest : List Lexeme}
      {stop reached : Nat}
      {others : List Tree}
      (declared : Rule.variableDeclaration.parseWithin budget cursor =
        .ok field ⟨semicolon :: rest, stop, reached⟩)
      (fits : semicolon.symbol = .mark .semicolon)
      (following : FieldsRead budget ⟨rest, stop, semicolon.token.stop⟩ others after) :
      FieldsRead budget cursor
        (field.withRole .item :: .leaf .semicolon semicolon :: others) after
  | unterminated
      {cursor middle after : Cursor}
      {field : Tree}
      {others : List Tree}
      (declared : Rule.variableDeclaration.parseWithin budget cursor = .ok field middle)
      (bare : middle.symbol ≠ .mark .semicolon)
      (following : FieldsRead budget middle others after) :
      FieldsRead budget cursor (field.withRole .item :: .missing .semicolon :: others) after

section Fields

variable
  {budget : Nat}
  {cursor middle after : Cursor}
  {field : Tree}

theorem reads_recordField_terminated
    {semicolon : Lexeme}
    {rest : List Lexeme}
    {stop reached : Nat}
    (declared : Reads budget variableDeclaration cursor field ⟨semicolon :: rest, stop, reached⟩)
    (fits : semicolon.symbol = .mark .semicolon) :
    Reads budget recordField cursor [field.withRole .item, .leaf .semicolon semicolon]
      ⟨rest, stop, semicolon.token.stop⟩ := by
  have next : (⟨semicolon :: rest, stop, reached⟩ : Cursor).symbol ∈ [Symbol.mark .semicolon] :=
    List.mem_singleton.mpr ((Cursor.symbol_of_rest rfl).trans fits)
  exact .part_seq declared (.seq (.first next (.token (List.mem_singleton.mpr fits))) .empty)

theorem reads_recordField_unterminated
    (declared : Reads budget variableDeclaration cursor field middle)
    (bare : middle.symbol ≠ .mark .semicolon) :
    Reads budget recordField cursor [field.withRole .item, .missing .semicolon] middle :=
  .part_seq declared (.seq (.second (by simpa using bare) .gap) .empty)

theorem reads_many_of_field
    {front output : List Tree}
    (head : Reads budget recordField cursor front middle) :
    Reads budget (.many [.ident] recordField) cursor output after ↔
      ∃ back, Reads budget (.many [.ident] recordField) middle back after ∧
        output = front ++ back := by
  obtain ⟨named, progress⟩ := head.opensWith .ident rfl
  exact reads_many_iff (List.mem_singleton.mpr named) head progress

theorem reads_many_of_field_of_following
    {front others output : List Tree}
    {last : Cursor}
    (head : Reads budget recordField cursor front middle)
    (following : ∀ {output}, Reads budget (.many [.ident] recordField) middle output after ↔
      ∃ back, Reads budget (.many [.ident] recordField) last back after ∧
        output = others ++ back) :
    Reads budget (.many [.ident] recordField) cursor output after ↔
      ∃ back, Reads budget (.many [.ident] recordField) last back after ∧
        output = front ++ others ++ back := by
  rw [reads_many_of_field head]
  constructor
  · rintro ⟨_, continued, rfl⟩
    obtain ⟨back, ends, rfl⟩ := following.mp continued
    exact ⟨back, ends, (List.append_assoc _ _ _).symm⟩
  · rintro ⟨back, ends, rfl⟩
    exact ⟨others ++ back, following.mpr ⟨back, ends, rfl⟩, List.append_assoc _ _ _⟩

/-- The loop over the fields of a record passes the fields that can be read. -/
theorem FieldsRead.reads_many_iff
    {fields output : List Tree}
    (h : FieldsRead budget cursor fields middle) :
    Reads budget (.many [.ident] recordField) cursor output after ↔
      ∃ back, Reads budget (.many [.ident] recordField) middle back after ∧
        output = fields ++ back := by
  induction h generalizing output with
  | none => simp
  | terminated declared fits _ ih =>
    exact reads_many_of_field_of_following
      (reads_recordField_terminated (run_eq_ok_iff.mp declared) fits) ih
  | unterminated declared bare _ ih =>
    exact reads_many_of_field_of_following
      (reads_recordField_unterminated (run_eq_ok_iff.mp declared) bare) ih

theorem exists_of_reads_recordType
    {tree : Tree}
    (h : Reads budget recordType cursor tree after) :
    ∃ parts middle,
      Reads budget (all [recordHeading, .many [.ident] recordField]) cursor parts middle ∧
      (after = middle ∧ Tree.reclaimEnd? parts ≠ none ∨
        ∃ back, Reads budget (word .ending .END "RECORD type") middle back after) := by
  obtain ⟨trees, inner, -⟩ := run_assemble_eq_ok_iff.mp h.run
  cases reads_seq_empty_iff.mp (run_eq_ok_iff.mp inner) with
  | reclaimed body _ handed => exact ⟨_, _, body, .inl ⟨rfl, by simp [handed]⟩⟩
  | unclaimed body _ last => exact ⟨_, _, body, .inr ⟨_, last⟩⟩

end Fields

/-- An object type takes the `END` that comes right after its word. -/
theorem reads_object
    (budget reached : Nat)
    {object ending : Lexeme}
    {rest : List Lexeme}
    {stop : Nat}
    (isObject : object.symbol = .word .OBJECT)
    (isEnd : ending.symbol = .word .END)
    (unnamed : (⟨rest, stop, ending.token.stop⟩ : Cursor).symbol ≠ .ident) :
    ∃ span inner,
      Reads (budget + 1) objectType ⟨object :: ending :: rest, stop, reached⟩
        (.node .root .objectType span
          [.leaf .keyword object, .node .declarations .declarations inner [],
            .leaf .ending ending])
        ⟨rest, stop, ending.token.stop⟩ := by
  let held : Cursor := ⟨ending :: rest, stop, object.token.stop⟩
  have next : held.symbol = .word .END := (Cursor.symbol_of_rest rfl).trans isEnd
  have declarations : Reads (budget + 1) declarationSequence held
      (.node .root .declarations (held.spanFrom held.start) []) held := by
    refine .deeper (.assemble (.seq (.manyStop ?_) .empty))
    rw [next]
    decide
  refine ⟨_, held.spanFrom held.start, .assemble (.token_seq (by simp [isObject])
    (reads_seq_empty_iff.mpr (.second ?_ ?_)))⟩
  · rw [next]
    decide
  · refine .skip_seq ?_ (.skip_seq ?_ (.part_seq declarations (.skip_seq ?_
      (.token_seq (by simp [isEnd]) (.skip_seq (by simpa using unnamed) .empty)))))
    · rw [next]
      decide
    · rw [next]
      decide
    · rw [next]
      decide

theorem reads_typeSpec_of_object
    {budget : Nat}
    {cursor after : Cursor}
    {tree : Tree}
    (next : cursor.symbol = .word .OBJECT)
    (h : Reads budget objectType cursor tree after) :
    Reads (budget + 1) typeSpec cursor tree after := by
  refine .deeper (.second ?_ (.second ?_ (.second ?_ (.second ?_ (.first ?_ h)))))
  all_goals
    rw [next]
    decide

/-- A record at a place, up to and including an `END` right after the type `OBJECT` of a field. -/
structure ObjectField (budget : Nat) (cursor : Cursor) where
  header : List Tree
  opened : Cursor
  fields : List Tree
  before : Cursor
  names : Tree
  colon : Lexeme
  object : Lexeme
  ending : Lexeme
  rest : List Lexeme
  stop : Nat
  reached : Nat
  heading : recordHeading.run (Level.parse budget) cursor = .ok header opened
  preceding : FieldsRead budget opened fields before
  named : Rule.variableNames.parseWithin budget before =
    .ok names ⟨colon :: object :: ending :: rest, stop, reached⟩
  isColon : colon.symbol = .mark .colon
  isObject : object.symbol = .word .OBJECT
  isEnd : ending.symbol = .word .END

namespace Tree

theorem reclaimEnd?_append
    {before : List Tree}
    {role place : Role}
    {span outer inner : Span}
    {names colon : Tree}
    {object ending : Lexeme} :
    reclaimEnd? (before ++
      [node role .variableDeclaration span
        [names, colon, node place .objectType outer
          [leaf .keyword object, node .declarations .declarations inner [], leaf .ending ending]],
        missing .semicolon]) =
    some (before ++
      [node role .variableDeclaration ⟨span.start, object.token.stop⟩
        [names, colon, node place .objectType object.token.span [leaf .keyword object]],
        missing .semicolon, leaf .ending ending]) := by
  simp [reclaimEnd?, releaseFieldEnd?, releaseEnd?, stopOr, span?, Token.span]

theorem reclaimEnd?_append_leaf
    {before : List Tree}
    {field : Tree}
    {role : Role}
    {lexeme : Lexeme} :
    reclaimEnd? (before ++ [field, leaf role lexeme]) = none := by
  simp [reclaimEnd?]

end Tree

namespace ObjectField

variable
  {budget : Nat}
  {cursor after : Cursor}
  {output : List Tree}

/-- The place after the `END`. -/
def next (record : ObjectField budget cursor) : Cursor :=
  ⟨record.rest, record.stop, record.ending.token.stop⟩

/-- The field with the generic object type. -/
def genericField (record : ObjectField budget cursor) : Tree :=
  .node .item .variableDeclaration ⟨record.before.start, record.object.token.stop⟩
    [record.names.withRole .names, .leaf .colon record.colon,
      .node .type .objectType record.object.token.span [.leaf .keyword record.object]]

/-- The loop over the fields reads the field with an `END` of its own. -/
theorem exists_reads_declaration
    (record : ObjectField (budget + 2) cursor)
    (unnamed : record.next.symbol ≠ .ident) :
    ∃ span outer inner,
      span.start = record.before.start ∧
      Reads (budget + 2) variableDeclaration record.before
        (.node .root .variableDeclaration span
          [record.names.withRole .names, .leaf .colon record.colon,
            .node .type .objectType outer
              [.leaf .keyword record.object, .node .declarations .declarations inner [],
                .leaf .ending record.ending]])
        record.next := by
  obtain ⟨outer, inner, held⟩ :=
    reads_object budget record.colon.token.stop record.isObject record.isEnd unnamed
  have type := reads_typeSpec_of_object ((Cursor.symbol_of_rest rfl).trans record.isObject) held
  refine ⟨_, outer, inner, rfl, .assemble (.part_seq (run_eq_ok_iff.mp record.named) ?_)⟩
  exact .token_seq (by simp [record.isColon]) (reads_seq_empty_iff.mpr (.part type))

theorem reads_body_iff
    (record : ObjectField budget cursor)
    {front : List Tree}
    {middle : Cursor}
    (head : Reads budget recordField record.before front middle) :
    Reads budget (all [recordHeading, .many [.ident] recordField]) cursor output after ↔
      ∃ back, Reads budget (.many [.ident] recordField) middle back after ∧
        output = record.header ++ record.fields ++ front ++ back := by
  refine (reads_seq_iff (run_eq_ok_iff.mp record.heading)).trans ?_
  constructor
  · rintro ⟨_, loop, rfl⟩
    obtain ⟨_, last, rfl⟩ := record.preceding.reads_many_iff.mp (reads_seq_empty_iff.mp loop)
    obtain ⟨back, others, rfl⟩ := (reads_many_of_field head).mp last
    exact ⟨back, others, by simp only [List.append_assoc]⟩
  · rintro ⟨back, others, rfl⟩
    have last := (reads_many_of_field head).mpr ⟨back, others, rfl⟩
    have loop := record.preceding.reads_many_iff.mpr ⟨_, last, rfl⟩
    exact ⟨_, reads_seq_empty_iff.mpr loop, by simp only [List.append_assoc]⟩

theorem reads_recordType
    (record : ObjectField (budget + 2) cursor)
    (unclosed : record.next.symbol ≠ .word .END)
    (unnamed : record.next.symbol ≠ .ident)
    (bare : record.next.symbol ≠ .mark .semicolon) :
    Reads (budget + 2) recordType cursor
      (.node .root .recordType (record.next.spanFrom cursor.start)
        (record.header ++ record.fields ++
          [record.genericField, .missing .semicolon, .leaf .ending record.ending]))
      record.next := by
  obtain ⟨span, outer, inner, start, declared⟩ := record.exists_reads_declaration unnamed
  have field := reads_recordField_unterminated declared bare
  have ends : Reads (budget + 2) (.many [.ident] recordField) record.next [] record.next :=
    .manyStop (by simpa using unnamed)
  have body := (record.reads_body_iff field).mpr ⟨[], ends, (List.append_nil _).symm⟩
  refine .assemble (reads_seq_empty_iff.mpr (.reclaimed body unclosed ?_))
  rw [genericField, ← start]
  exact Tree.reclaimEnd?_append

/-- A semicolon after the `END` is read as the one after the field. -/
theorem exists_reads_field_of_semicolon
    (record : ObjectField (budget + 2) cursor)
    {semicolon : Lexeme}
    {more : List Lexeme}
    (ahead : record.rest = semicolon :: more)
    (fits : semicolon.symbol = .mark .semicolon) :
    ∃ field,
      Reads (budget + 2) recordField record.before [field, .leaf .semicolon semicolon]
        ⟨more, record.stop, semicolon.token.stop⟩ := by
  have unnamed : record.next.symbol ≠ .ident := by
    rw [Cursor.symbol_of_rest ahead, fits]
    decide
  obtain ⟨span, outer, inner, -, declared⟩ := record.exists_reads_declaration unnamed
  rw [next, ahead] at declared
  exact ⟨_, reads_recordField_terminated declared fits⟩

/-- A record that is read has gone past a semicolon after the `END`. -/
theorem length_lt_of_semicolon
    (record : ObjectField (budget + 2) cursor)
    {tree : Tree}
    (semicolon : record.next.symbol = .mark .semicolon)
    (h : Reads (budget + 2) recordType cursor tree after) :
    after.rest.length < record.next.rest.length := by
  obtain ⟨lexeme, more, ahead⟩ := record.next.exists_of_symbol_ne (by simp [semicolon])
  have fits := (Cursor.symbol_of_rest ahead).symm.trans semicolon
  obtain ⟨field, head⟩ := record.exists_reads_field_of_semicolon ahead fits
  obtain ⟨parts, middle, body, ending⟩ := exists_of_reads_recordType h
  obtain ⟨back, others, -⟩ := (record.reads_body_iff head).mp body
  have passed : middle.rest.length ≤ more.length := others.suffix.length_le
  have kept : after.rest.length ≤ middle.rest.length := by
    rcases ending with ⟨rfl, -⟩ | ⟨closing, last⟩
    · exact Nat.le_refl _
    · exact last.suffix.length_le
  rw [ahead, List.length_cons]
  omega

end ObjectField

namespace Rule

variable
  {budget : Nat}
  {cursor : Cursor}

/-- A record takes the `END` back from its last field, whose type then is the generic object type,
exactly if no semicolon comes next. -/
theorem recordType_takesEnd_iff
    (record : ObjectField budget cursor)
    (enough : 2 ≤ budget)
    (unclosed : record.next.symbol ≠ .word .END)
    (unnamed : record.next.symbol ≠ .ident) :
    (∃ type,
      Rule.recordType.parseWithin budget cursor =
        .ok
          (.node .root .recordType (record.next.spanFrom cursor.start)
            (record.header ++ record.fields ++
              [.node .item .variableDeclaration
                ⟨record.before.start, record.object.token.stop⟩
                [record.names.withRole .names, .leaf .colon record.colon, type],
                .missing .semicolon, .leaf .ending record.ending]))
          record.next ∧
      type.kind? = some .objectType ∧
      type.hasTrait .generic = true ∧
      type.has .declarations = false ∧
      type.span? = some record.object.token.span) ↔
    record.next.symbol ≠ .mark .semicolon := by
  obtain ⟨budget, rfl⟩ := Nat.exists_eq_add_of_le' enough
  constructor
  · rintro ⟨type, parsed, -⟩ semicolon
    have shorter := record.length_lt_of_semicolon semicolon (run_eq_ok_iff.mp parsed)
    exact absurd shorter (Nat.lt_irrefl _)
  · intro bare
    exact ⟨_, (record.reads_recordType unclosed unnamed bare).run, rfl, rfl, rfl, rfl⟩

/-- The theorem applies to `RECORD a: T; o: OBJECT END` before a parenthesis. -/
theorem recordType_takesEnd_parenthesis :
    ∃ cursor, ∃ record : ObjectField maxNesting cursor,
      record.fields.length = 2 ∧ record.next.symbol = .mark .rightParen ∧
        ∃ tree, Rule.recordType.parseWithin maxNesting cursor = .ok tree record.next := by
  let colon : Lexeme := ⟨⟨.mark .colon, 14, 15⟩, ""⟩
  let object : Lexeme := ⟨⟨.word .OBJECT, 16, 22⟩, ""⟩
  let ending : Lexeme := ⟨⟨.word .END, 23, 26⟩, ""⟩
  let parenthesis : Lexeme := ⟨⟨.mark .rightParen, 26, 27⟩, ""⟩
  let semicolon : Lexeme := ⟨⟨.mark .semicolon, 11, 12⟩, ""⟩
  let last : List Lexeme := [⟨⟨.ident, 13, 14⟩, "o"⟩, colon, object, ending, parenthesis]
  let first : List Lexeme :=
    [⟨⟨.ident, 7, 8⟩, "a"⟩, ⟨⟨.mark .colon, 8, 9⟩, ""⟩, ⟨⟨.ident, 10, 11⟩, "T"⟩, semicolon]
  obtain ⟨header, heading⟩ := Parser.place?_eq_some_iff.mp
    (show (recordHeading.run (Level.parse maxNesting)).place?
      ⟨⟨⟨.word .RECORD, 0, 6⟩, ""⟩ :: first ++ last, 27, 0⟩ = some ⟨first ++ last, 27, 6⟩ by
        decide +kernel)
  obtain ⟨field, declared⟩ := Parser.place?_eq_some_iff.mp
    (show (Rule.variableDeclaration.parseWithin maxNesting).place? ⟨first ++ last, 27, 6⟩ =
      some ⟨semicolon :: last, 27, 11⟩ by decide +kernel)
  obtain ⟨names, named⟩ := Parser.place?_eq_some_iff.mp
    (show (Rule.variableNames.parseWithin maxNesting).place? ⟨last, 27, 12⟩ =
      some ⟨[colon, object, ending, parenthesis], 27, 14⟩ by decide +kernel)
  let record : ObjectField maxNesting _ :=
    ⟨header, _, _, _, names, colon, object, ending, [parenthesis], 27, 14, heading,
      .terminated declared rfl .none, named, rfl, rfl, rfl⟩
  have standing : record.next.symbol = .mark .rightParen := rfl
  obtain ⟨_, parsed, -⟩ := (recordType_takesEnd_iff record (by decide) (by simp [standing])
    (by simp [standing])).mpr (by simp [standing])
  exact ⟨_, record, rfl, standing, _, parsed⟩

/-- After a semicolon the record looks for another `END`, and fails if there is none. -/
theorem recordType_fails_of_semicolon
    (record : ObjectField budget cursor)
    (enough : 2 ≤ budget)
    {semicolon : Lexeme}
    {more : List Lexeme}
    (ahead : record.rest = semicolon :: more)
    (fits : semicolon.symbol = .mark .semicolon)
    (unclosed : (⟨more, record.stop, semicolon.token.stop⟩ : Cursor).symbol ≠ .word .END)
    (unnamed : (⟨more, record.stop, semicolon.token.stop⟩ : Cursor).symbol ≠ .ident) :
    ∀ tree after, Rule.recordType.parseWithin budget cursor ≠ .ok tree after := by
  intro tree after parsed
  obtain ⟨budget, rfl⟩ := Nat.exists_eq_add_of_le' enough
  obtain ⟨field, head⟩ := record.exists_reads_field_of_semicolon ahead fits
  obtain ⟨parts, middle, body, ending⟩ := exists_of_reads_recordType (run_eq_ok_iff.mp parsed)
  obtain ⟨back, others, rfl⟩ := (record.reads_body_iff head).mp body
  -- the loop ends right after the semicolon
  obtain ⟨rfl, rfl⟩ := others.deterministic (.manyStop (by simpa using unnamed))
  rcases ending with ⟨-, handed⟩ | ⟨closing, last⟩
  · rw [List.append_nil] at handed
    exact absurd Tree.reclaimEnd?_append_leaf handed
  · exact absurd (last.opensWith (.word .END) rfl).1 unclosed

example :
    Rule.recordType.parse.place?
      (.ofStream (.ofSource (.ofText "M" "RECORD o: OBJECT END;"))) = none := by
  decide +kernel

end Rule

end Oberon
