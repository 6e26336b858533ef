import Oberon.Proofs.Implements
import Oberon.Proofs.Locality

/-!
# Words with blanks between them

If every word of a text is one token (`Scan.oneToken?`) and a blank stands before each, then the
text has the symbols of its words, in their order (`Cursor.symbols_ofText`).
-/

namespace Oberon

section Words

open Scan Scanner

/-- The symbol of a text that is a single token.  The word `CODE` is left out, since it changes how
the text after it is read. -/
def Scan.oneToken? (text : List Char) : Option Symbol :=
  match read? text with
  | some ⟨symbol, ⟨_, []⟩, []⟩ =>
    if startsGap text || symbol == .word .CODE then none else some symbol
  | _ => none

/-- Words with a blank before each. -/
def spaced (words : List (List Char)) : List Char := words.flatMap (' ' :: ·)

theorem endsToken_spaced (words : List (List Char)) : endsToken (spaced words) = true := by
  cases words with
  | nil => rfl
  | cons word rest => rfl

variable {symbol : Symbol}

/-- What makes a text a single token. -/
theorem Scan.oneToken?_eq_some
    {text : List Char}
    (h : oneToken? text = some symbol) :
    read? text = some ⟨symbol, ⟨text, []⟩, []⟩ ∧ startsGap text = false ∧
      symbol ≠ .word .CODE ∧ symbol ≠ .endOfFile := by
  unfold oneToken? at h
  split at h
  · rename_i _ front found
    split at h
    · cases h
    · rename_i apart
      cases h
      have whole := whole_read? found
      rw [Cut.whole, List.append_nil] at whole
      subst whole
      simp only [Bool.or_eq_true, beq_iff_eq, not_or, Bool.not_eq_true] at apart
      exact ⟨found, apart.1, apart.2, (spelled_read? found).token⟩
  · cases h

/-- A word after a blank is scanned as its token, whatever words follow it. -/
theorem Scanner.next_spaced
    {word : List Char}
    (token : oneToken? word = some symbol)
    (rest : List (List Char))
    (offset : Nat) :
    ∃ lexeme : Lexeme, lexeme.symbol = symbol ∧ ∃ offset' : Nat,
      (⟨spaced (word :: rest), offset, false⟩ : Scanner).next =
        ⟨lexeme, [], ⟨spaced rest, offset', false⟩⟩ := by
  obtain ⟨found, bare, plain, -⟩ := oneToken?_eq_some token
  have ends := endsToken_spaced rest
  have blank : Gap [' '] := .blank rfl .nil
  have step := Advance.token offset blank (startsGap_append found bare ends)
    (read?_append found ends nofun)
  have inText : (symbol == .word .CODE) = false := beq_eq_false_iff_ne.mpr plain
  rw [tokenAt, Reading.before, inText] at step
  exact ⟨_, rfl, _, step.next_eq⟩

/-- The symbols of words with blanks between them. -/
theorem symbols_spaced
    {words : List (List Char)}
    {symbols : List Symbol}
    (tokens : words.map oneToken? = symbols.map some)
    (offset : Nat) :
    (⟨spaced words, offset, false⟩ : Scanner).run.map (·.lexeme.symbol) =
      symbols ++ [.endOfFile] := by
  induction words generalizing symbols offset with
  | nil =>
    obtain rfl := List.map_eq_nil_iff.mp tokens.symm
    have ends : (⟨[], offset, false⟩ : Scanner).next = endAt [] offset [] :=
      (Advance.stray offset .nil rfl rfl).next_eq
    rw [spaced, List.flatMap_nil, run_of_end (by rw [ends]; rfl), ends]
    rfl
  | cons word rest ih =>
    obtain ⟨symbol, others, rfl, token, more⟩ := List.map_eq_cons_iff.mp tokens.symm
    obtain ⟨lexeme, rfl, offset', step⟩ := next_spaced token.symm rest offset
    obtain ⟨-, -, -, continues⟩ := oneToken?_eq_some token.symm
    rw [run_of_token (by rwa [step]), step, List.map_cons, ih more.symm]
    rfl

end Words

namespace Cursor

theorem symbol_of_symbols
    {cursor : Cursor}
    {symbol : Symbol}
    {others : List Symbol}
    (stands : cursor.symbols = symbol :: others) :
    cursor.symbol = symbol := by
  rw [symbol_eq_next, stands]
  rfl

theorem length_lt_of_symbols
    {cursor last : Cursor}
    {before after : List Symbol}
    (reached : last.symbols = after)
    (stands : cursor.symbols = before)
    (shorter : after.length < before.length) :
    last.rest.length < cursor.rest.length := by
  rwa [← reached, ← stands, symbols, symbols, List.length_map, List.length_map] at shorter

theorem symbols_ofText
    (name : String)
    {words : List (List Char)}
    {symbols : List Symbol}
    (tokens : words.map Scan.oneToken? = symbols.map some) :
    (ofStream (.ofText name (spaced words))).symbols = symbols := by
  have present : ∀ symbol ∈ symbols, (symbol != .endOfFile) = true := by
    intro symbol member
    have listed : some symbol ∈ words.map Scan.oneToken? := by
      rw [tokens]
      exact List.mem_map_of_mem member
    obtain ⟨word, -, token⟩ := List.mem_map.mp listed
    exact bne_iff_ne.mpr (Scan.oneToken?_eq_some token).2.2.2
  calc ((TokenStream.ofText name (spaced words)).lexemes.takeWhile (·.symbol != .endOfFile)).map
        (·.symbol)
      = ((TokenStream.ofText name (spaced words)).lexemes.map (·.symbol)).takeWhile
          (· != Symbol.endOfFile) := by
        rw [List.takeWhile_map]
        rfl
    _ = (symbols ++ [Symbol.endOfFile]).takeWhile (· != .endOfFile) := by
        rw [← symbols_spaced tokens 0, TokenStream.ofText, List.map_map]
        rfl
    _ = symbols := by
        rw [List.takeWhile_append_of_pos present]
        exact List.append_nil symbols

end Cursor

end Oberon
