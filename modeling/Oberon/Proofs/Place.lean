import Oberon.Proofs.Consumption
import Oberon.Proofs.Stream

/-!
# Places in a stream

A cursor faces an index of a stream if the lexemes that come next are those of the stream from that
index on (`Cursor.Faces`), and stands at it if nothing beyond it has been consumed either
(`Cursor.At`).  There is such a cursor for every index, and whoever passes over some lexemes arrives
at the index after them (`Cursor.Faces.passes`).

In a text that is short enough for all of its places to be offsets, the lexemes that come next are
in the order of the text (`Cursor.Ordered`), so that the cursor then stands at the index
(`Cursor.At.passes`).
-/

namespace Oberon

namespace TokenStream

/-- The tokens of a stream, of which the last is the end of the file. -/
def tokens (stream : TokenStream) : List Token := stream.lexemes.map (·.token)

end TokenStream

namespace Cursor

/-- The lexemes that come next, and the end of the file. -/
def upcoming (cursor : Cursor) : List Lexeme := cursor.rest ++ [⟨.endAt cursor.stop, ""⟩]

theorem upcoming_eq_cons (cursor : Cursor) :
    ∃ others, cursor.upcoming = cursor.next :: others := by
  rcases cursor with ⟨rest, stop, reached⟩
  cases rest with
  | nil => exact ⟨[], rfl⟩
  | cons lexeme rest => exact ⟨rest ++ [⟨.endAt stop, ""⟩], rfl⟩

theorem next_mem_upcoming (cursor : Cursor) : cursor.next ∈ cursor.upcoming := by
  rcases cursor.upcoming_eq_cons with ⟨others, h⟩
  rw [h]
  exact List.mem_cons_self

theorem Passes.upcoming
    {cursor after : Cursor}
    {front : List Lexeme}
    (h : cursor.Passes front after) :
    cursor.upcoming = front ++ after.upcoming := by
  rw [Cursor.upcoming, Cursor.upcoming, h.rest, h.stop, List.append_assoc]

/-- The lexemes that come next are in the order of the text, and so is what was consumed. -/
structure Ordered (cursor : Cursor) : Prop where
  each : ∀ lexeme ∈ cursor.upcoming, lexeme.token.start ≤ lexeme.token.stop
  between : cursor.upcoming.Pairwise fun earlier later => earlier.token.stop ≤ later.token.start
  reached : cursor.reached ≤ cursor.start

/-- A lexeme that is passed over ends before the one that comes next then. -/
theorem Ordered.stop_le_start
    {cursor after : Cursor}
    {front : List Lexeme}
    {lexeme : Lexeme}
    (h : cursor.Ordered)
    (passed : cursor.Passes front after)
    (member : lexeme ∈ front) :
    lexeme.token.stop ≤ after.start := by
  have between := h.between
  rw [passed.upcoming] at between
  exact (List.pairwise_append.mp between).2.2 lexeme member after.next after.next_mem_upcoming

theorem Ordered.passes
    {cursor after : Cursor}
    {front : List Lexeme}
    (h : cursor.Ordered)
    (passed : cursor.Passes front after) :
    after.Ordered := by
  refine ⟨?_, ?_, ?_⟩
  · intro lexeme member
    apply h.each
    rw [passed.upcoming]
    exact List.mem_append_right _ member
  · have between := h.between
    rw [passed.upcoming] at between
    exact (List.pairwise_append.mp between).2.1
  · rw [passed.reached]
    cases last : front.getLast? with
    | none =>
      have nothing := List.getLast?_eq_none_iff.mp last
      subst nothing
      have same : after.start = cursor.start := by
        rw [start, token, next, start, token, next, passed.rest, passed.stop, List.nil_append]
      rw [same]
      exact h.reached
    | some lexeme => exact h.stop_le_start passed (List.mem_of_getLast? last)

/-- What comes next is the stream from an index on. -/
structure Faces (cursor : Cursor) (stream : TokenStream) (index : Nat) : Prop where
  upcoming : cursor.upcoming = stream.lexemes.drop index

namespace Faces

variable
  {stream : TokenStream}
  {index : Nat}
  {cursor after : Cursor}
  {front : List Lexeme}

theorem lt_length
    (h : cursor.Faces stream index) :
    index < stream.lexemes.length := by
  obtain ⟨others, ahead⟩ := cursor.upcoming_eq_cons
  have left := congrArg List.length h.upcoming
  rw [ahead, List.length_cons, List.length_drop] at left
  omega

/-- The next token is the one at the index. -/
theorem token?_eq
    (h : cursor.Faces stream index) :
    stream.token? index = some cursor.token := by
  obtain ⟨others, ahead⟩ := cursor.upcoming_eq_cons
  rw [h.upcoming] at ahead
  have next : stream.lexemes[index]? = some cursor.next := by
    rw [← List.head?_drop, ahead]
    rfl
  rw [TokenStream.token?, next]
  rfl

/-- Passing over some lexemes leads to the index after them. -/
theorem passes
    (h : cursor.Faces stream index)
    (passed : cursor.Passes front after) :
    after.Faces stream (index + front.length) := by
  refine ⟨?_⟩
  rw [← List.drop_drop, ← h.upcoming, passed.upcoming, List.drop_left]

/-- The lexemes that are passed over are those of the stream between the two indexes. -/
theorem lexemes_between
    (h : cursor.Faces stream index)
    (passed : cursor.Passes front after) :
    front = (stream.lexemes.take (index + front.length)).drop index := by
  rw [List.drop_take, ← h.upcoming, passed.upcoming, Nat.add_sub_cancel_left, List.take_left]

/-- What comes next, apart from the end of the file, are lexemes of the stream. -/
theorem mem_lexemes
    {lexeme : Lexeme}
    (h : cursor.Faces stream index)
    (member : lexeme ∈ cursor.rest) :
    lexeme ∈ stream.lexemes := by
  have among : lexeme ∈ cursor.upcoming := List.mem_append_left _ member
  rw [h.upcoming] at among
  exact List.mem_of_mem_drop among

theorem symbol_ne_endOfFile
    {name : String}
    {text : List Char}
    {lexeme : Lexeme}
    (h : cursor.Faces (.ofText name text) index)
    (member : lexeme ∈ cursor.rest) :
    lexeme.symbol ≠ .endOfFile := by
  obtain ⟨front, stop, closed, inner⟩ := TokenStream.closed_lexemes name text
  have upcoming := h.upcoming
  rw [closed, Cursor.upcoming] at upcoming
  rcases Nat.lt_or_ge front.length index with beyond | within
  · rw [List.drop_eq_nil_of_le (by rw [List.length_append]; exact beyond)] at upcoming
    simp at upcoming
  · rw [List.drop_append_of_le_length within] at upcoming
    rw [List.append_inj_left' upcoming rfl] at member
    exact inner lexeme (List.mem_of_mem_drop member)

end Faces

/-- The cursor stands at an index of a stream. -/
structure At (cursor : Cursor) (stream : TokenStream) (index : Nat) : Prop
    extends Faces cursor stream index where
  reached : cursor.reached ≤ cursor.start

namespace At

variable
  {name : String}
  {text : List Char}
  {index : Nat}
  {cursor after : Cursor}
  {front : List Lexeme}

theorem ordered
    (h : cursor.At (.ofText name text) index)
    (short : text.length < wordCount) :
    cursor.Ordered := by
  have lexemes := TokenStream.lexemes_ofText name short
  refine ⟨?_, ?_, h.reached⟩
  · intro lexeme member
    rw [h.upcoming] at member
    exact (lexemes.covers lexeme (List.mem_of_mem_drop member)).ordered
  · rw [h.upcoming]
    exact lexemes.ordered.sublist (List.drop_sublist _ _)

/-- In a short text, passing over some lexemes leads to the index after them. -/
theorem passes
    (h : cursor.At (.ofText name text) index)
    (short : text.length < wordCount)
    (passed : cursor.Passes front after) :
    after.At (.ofText name text) (index + front.length) :=
  ⟨h.toFaces.passes passed, ((h.ordered short).passes passed).reached⟩

end At

/-- The beginning of lexemes that the end of the file closes. -/
theorem ofLexemes_append_end
    {front : List Lexeme}
    {last : Lexeme}
    (inner : ∀ lexeme ∈ front, lexeme.symbol ≠ .endOfFile)
    (ends : last.symbol = .endOfFile) :
    ofLexemes (front ++ [last]) = ⟨front, last.token.start, 0⟩ := by
  have absent : front.find? (·.symbol == .endOfFile) = none := by
    rw [List.find?_eq_none]
    intro lexeme member
    simpa using inner lexeme member
  have others : (front ++ [last]).takeWhile (·.symbol != .endOfFile) = front := by
    rw [List.takeWhile_append_of_pos]
    · simp [ends]
    · intro lexeme member
      simpa using inner lexeme member
  simp [ofLexemes, others, absent, ends]

/-- The beginning of a stream is its first index. -/
theorem at_ofStream
    (name : String)
    (text : List Char) :
    (ofStream (.ofText name text)).At (.ofText name text) 0 := by
  obtain ⟨front, stop, closed, inner⟩ := TokenStream.closed_lexemes name text
  rw [ofStream, closed, ofLexemes_append_end inner rfl]
  exact ⟨⟨closed.symm⟩, Nat.zero_le _⟩

end Cursor

end Oberon
