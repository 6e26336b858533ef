import Oberon.LineTable
import Oberon.Proofs.Locality

/-!
# Locations

An offset cuts the line it lies in: what stands before the line, the line up to the offset, the rest
of the line, and what stands after it (`LineCut`).  The line table finds exactly this line, by a
binary search among the offsets that follow a line feed, and no step of its arithmetic fails as long
as line numbers and columns are machine words (`LineTable.locate?_of_cut`).

A token starts neither with a line feed nor with a carriage return, so its first character is in the
line that its location shows (`Source.locations_exact`).
-/

namespace Oberon

open Scan

/-- An offset cuts a text in four: what stands before its line, the line up to the offset, the rest
of the line, and what stands after it. -/
structure LineCut
    (text : List Char) (offset : Nat) (earlier front back later : List Char) : Prop where
  whole : text = earlier ++ (front ++ back) ++ later
  reached : offset = earlier.length + front.length
  unbroken : '\n' ∉ front ++ back
  begins : earlier = [] ∨ ∃ before, earlier = before ++ ['\n']
  ends : later = [] ∨ ∃ after, later = '\n' :: after

namespace LineCut

variable {text earlier front back later : List Char} {offset : Nat}

/-- Every offset up to the end of the text lies in a line. -/
theorem exists_cut
    (within : offset ≤ text.length) :
    ∃ earlier front back later, LineCut text offset earlier front back later := by
  let before := Cut.takeWhile (· != '\n') (text.take offset).reverse
  let after := Cut.takeWhile (· != '\n') (text.drop offset)
  have wholeBefore : before.back.reverse ++ before.front.reverse = text.take offset := by
    rw [← List.reverse_append, ← Cut.whole, Cut.whole_takeWhile, List.reverse_reverse]
  have wholeAfter : after.front ++ after.back = text.drop offset := Cut.whole_takeWhile _ _
  have unbrokenBefore := Cut.forall_mem_front_takeWhile (· != '\n') (text.take offset).reverse
  have unbrokenAfter := Cut.forall_mem_front_takeWhile (· != '\n') (text.drop offset)
  have stopBefore := Cut.head?_back_takeWhile (· != '\n') (text.take offset).reverse
  have stopAfter := Cut.head?_back_takeWhile (· != '\n') (text.drop offset)
  refine ⟨before.back.reverse, before.front.reverse, after.front, after.back, ?_, ?_, ?_, ?_, ?_⟩
  · rw [← List.append_assoc, wholeBefore, List.append_assoc, wholeAfter, List.take_append_drop]
  · have lengths := congrArg List.length wholeBefore
    rw [List.length_append, List.length_take, Nat.min_eq_left within] at lengths
    exact lengths.symm
  · intro member
    rcases List.mem_append.mp member with early | late
    · exact absurd (unbrokenBefore _ (List.mem_reverse.mp early)) (by decide)
    · exact absurd (unbrokenAfter _ late) (by decide)
  · change before.back.head?.any _ = false at stopBefore
    cases back : before.back with
    | nil => exact .inl rfl
    | cons c rest =>
      rw [back] at stopBefore
      obtain rfl : c = '\n' := by simpa using stopBefore
      exact .inr ⟨rest.reverse, List.reverse_cons⟩
  · change after.back.head?.any _ = false at stopAfter
    cases back : after.back with
    | nil => exact .inl rfl
    | cons c rest =>
      rw [back] at stopAfter
      obtain rfl : c = '\n' := by simpa using stopAfter
      exact .inr ⟨rest, rfl⟩

theorem count_take
    (cut : LineCut text offset earlier front back later) :
    (text.take offset).count '\n' = earlier.count '\n' := by
  obtain ⟨rfl, rfl, unbroken, begins, ends⟩ := cut
  have free : '\n' ∉ front := fun member => unbroken (List.mem_append_left back member)
  rw [← List.append_assoc, List.append_assoc, ← List.length_append, List.take_left,
    List.count_append, List.count_eq_zero.mpr free, Nat.add_zero]

end LineCut

namespace Checked

variable {test : Nat → Bool} {words : List Nat}

/-- The search keeps the boundary between its two ends. -/
theorem searchFrom_eq
    {boundary base size : Nat}
    (parted : ∀ index word, words[index]? = some word → (test word = true ↔ index < boundary))
    (inside : base + size ≤ words.length)
    (filled : 0 < size)
    (low : base ≤ boundary)
    (high : boundary ≤ base + size) :
    searchFrom test words base size = boundary := by
  have decides : ∀ index < words.length,
      words[index]?.any test = decide (index < boundary) := by
    intro index bound
    have found := parted index words[index] (List.getElem?_eq_getElem bound)
    rw [List.getElem?_eq_getElem bound, Option.any_some]
    exact Bool.eq_iff_iff.mpr (found.trans decide_eq_true_iff.symm)
  induction size using Nat.strongRecOn generalizing base with
  | ind size ih =>
    rw [searchFrom]
    by_cases short : size ≤ 1
    · rw [if_pos short, decides base (by omega)]
      split <;> simp only [decide_eq_true_eq] at * <;> omega
    · rw [if_neg short]
      -- the element in the middle tells on which side the boundary is
      have decided := decides (base + size / 2) (by omega)
      by_cases below : base + size / 2 < boundary
      · simp only [decided, decide_eq_true below, if_true]
        exact ih _ (by omega) (by omega) (by omega) (by omega) (by omega)
      · simp only [decided, decide_eq_false below, Bool.false_eq_true, if_false]
        exact ih _ (by omega) (by omega) (by omega) (by omega) (by omega)

/-- The boundary of a parted list is found. -/
theorem partitionPoint_append
    {front back : List Nat}
    (passes : ∀ word ∈ front, test word = true)
    (fails : ∀ word ∈ back, test word = false) :
    partitionPoint test (front ++ back) = front.length := by
  have parted : ∀ index word, (front ++ back)[index]? = some word →
      (test word = true ↔ index < front.length) := by
    intro index word found
    by_cases early : index < front.length
    · rw [List.getElem?_append_left early] at found
      exact iff_of_true (passes word (List.mem_of_getElem? found)) early
    · rw [List.getElem?_append_right (Nat.le_of_not_lt early)] at found
      have failed := fails word (List.mem_of_getElem? found)
      exact iff_of_false (by simp [failed]) early
  have length : (front ++ back).length = front.length + back.length := List.length_append
  rw [partitionPoint]
  split
  · rename_i empty
    rw [List.isEmpty_iff, List.append_eq_nil_iff] at empty
    rw [empty.1, List.length_nil]
  · rename_i filled
    rw [List.isEmpty_iff, ← List.length_eq_zero_iff] at filled
    exact searchFrom_eq parted (by omega) (by omega) (by omega) (by omega)

end Checked

open Checked

namespace LineTable

/-- The offsets after the line feeds of a text that stands behind others. -/
def feeds (base : Nat) (text : List Char) : List Nat :=
  ((text.zipIdx base).filter (·.1 == '\n')).map (·.2 + 1)

theorem feeds_append
    (base : Nat)
    (front back : List Char) :
    feeds base (front ++ back) = feeds base front ++ feeds (base + front.length) back := by
  rw [feeds, List.zipIdx_append, List.filter_append, List.map_append]
  rfl

theorem feeds_cons
    (base : Nat)
    (c : Char)
    (text : List Char) :
    feeds base (c :: text) = if c = '\n' then (base + 1) :: feeds (base + 1) text
      else feeds (base + 1) text := by
  rw [feeds, List.zipIdx_cons, List.filter_cons]
  by_cases feed : c = '\n' <;> simp [feeds, feed]

theorem length_feeds
    (base : Nat)
    (text : List Char) :
    (feeds base text).length = text.count '\n' := by
  induction text generalizing base with
  | nil => rfl
  | cons c text ih =>
    rw [feeds_cons, List.count_cons]
    by_cases feed : c = '\n' <;> simp [feed, ih]

theorem feeds_of_unbroken
    {text : List Char}
    (unbroken : '\n' ∉ text)
    (base : Nat) :
    feeds base text = [] := by
  rw [← List.length_eq_zero_iff, length_feeds, List.count_eq_zero.mpr unbroken]

theorem mem_feeds
    {base start : Nat}
    {text : List Char}
    (member : start ∈ feeds base text) :
    base < start ∧ start ≤ base + text.length := by
  induction text generalizing base with
  | nil => cases member
  | cons c text ih =>
    rw [feeds_cons] at member
    rw [List.length_cons]
    split at member
    · rcases List.mem_cons.mp member with rfl | later
      · omega
      · have := ih later
        omega
    · have := ih member
      omega

/-- The offsets are machine words if the text is shorter than the number of words. -/
theorem mapM_feeds
    {base : Nat}
    {text : List Char}
    (small : base + text.length < wordCount) :
    ((text.zipIdx base).filter (·.1 == '\n')).mapM (fun feed => add? (toWord feed.2) 1) =
      some (feeds base text) := by
  induction text generalizing base with
  | nil => rfl
  | cons c text ih =>
    rw [List.length_cons] at small
    have next := ih (show base + 1 + text.length < wordCount by omega)
    have word : toWord base = base := toWord_of_lt (by omega)
    have sum : add? base 1 = some (base + 1) := if_pos (by omega)
    rw [feeds_cons, List.zipIdx_cons, List.filter_cons]
    by_cases feed : c = '\n'
    · simp [feed, next, word, sum]
    · simp [feed, next]

theorem ofText?_eq
    {text : List Char}
    (small : text.length < wordCount) :
    ofText? text = some ⟨text, 0 :: feeds 0 text⟩ := by
  rw [ofText?, mapM_feeds (by omega)]
  rfl

/-- The starts of lines up to the one that is cut, and those after it. -/
theorem starts_of_cut
    {text earlier front back later : List Char}
    {offset : Nat}
    (cut : LineCut text offset earlier front back later) :
    0 :: feeds 0 text =
      (0 :: feeds 0 earlier) ++ feeds (earlier.length + (front ++ back).length) later := by
  rw [cut.whole, feeds_append, feeds_append, feeds_of_unbroken cut.unbroken, List.append_nil,
    Nat.zero_add, List.length_append, List.cons_append]

/-- The search passes the starts of lines up to the one that is cut, and none after it. -/
theorem lineOf_eq
    {text earlier front back later : List Char}
    {offset : Nat}
    (cut : LineCut text offset earlier front back later) :
    lineOf ⟨text, 0 :: feeds 0 text⟩ offset = earlier.count '\n' := by
  have passes : ∀ start ∈ 0 :: feeds 0 earlier, decide (start ≤ offset) = true := by
    intro start member
    rw [cut.reached, decide_eq_true_eq]
    rcases List.mem_cons.mp member with rfl | feed
    · omega
    · have := mem_feeds feed
      omega
  have fails : ∀ start ∈ feeds (earlier.length + (front ++ back).length) later,
      decide (start ≤ offset) = false := by
    intro start member
    have := mem_feeds member
    rw [List.length_append] at this
    rw [cut.reached, decide_eq_false_iff_not]
    omega
  rw [lineOf, starts_of_cut cut, partitionPoint_append passes fails, List.length_cons, length_feeds,
    Nat.add_sub_cancel]

/-- The line that is cut starts after what stands before it. -/
theorem getElem?_start
    {text earlier front back later : List Char}
    {offset : Nat}
    (cut : LineCut text offset earlier front back later) :
    (0 :: feeds 0 text)[earlier.count '\n']? = some earlier.length := by
  rw [starts_of_cut cut, List.getElem?_append_left (by simp [length_feeds])]
  rcases cut.begins with rfl | ⟨before, rfl⟩
  · rfl
  · rw [List.count_append, List.count_singleton_self, List.getElem?_cons_succ, feeds_append,
      List.getElem?_append_right (Nat.le_of_eq (length_feeds 0 before)), length_feeds,
      Nat.sub_self, Nat.zero_add]
    simp [feeds_cons]

/-- The line that is cut stops where the next one starts, less the line feed. -/
theorem stopOf?_eq
    {text earlier front back later : List Char}
    {offset : Nat}
    (cut : LineCut text offset earlier front back later) :
    stopOf? ⟨text, 0 :: feeds 0 text⟩ (earlier.count '\n') =
      some (earlier.length + (front ++ back).length) := by
  rw [stopOf?, starts_of_cut cut, List.getElem?_append_right (by simp [length_feeds]),
    List.length_cons, length_feeds, Nat.sub_self]
  rcases cut.ends with rfl | ⟨after, rfl⟩
  · rw [cut.whole]
    simp [feeds]
  · simp [feeds_cons, subtract?]

/-- No step of the arithmetic fails, and the place is that of the line that is cut. -/
theorem locate?_of_cut
    {text earlier front back later : List Char}
    {offset : Nat}
    (cut : LineCut text offset earlier front back later)
    (small : text.length < wordCount - 1)
    (name : String) :
    locate? ⟨text, 0 :: feeds 0 text⟩ name offset =
      some ⟨name, earlier.count '\n' + 1, front.length + 1,
        String.ofList (trimmed (front ++ back))⟩ := by
  have length : text.length = earlier.length + (front ++ back).length + later.length := by
    rw [cut.whole, List.length_append, List.length_append]
  have counted : earlier.count '\n' ≤ earlier.length := List.count_le_length
  have line : slice? text earlier.length (earlier.length + (front ++ back).length) =
      some (front ++ back) := by
    rw [slice?, if_pos (by omega), cut.whole, ← List.length_append, List.take_left, List.drop_left]
  have number : toWord (earlier.count '\n') = earlier.count '\n' := toWord_of_lt (by omega)
  have start : toWord earlier.length = earlier.length := toWord_of_lt (by omega)
  have distance : subtract? offset earlier.length = some front.length := by
    rw [subtract?, cut.reached, if_pos (by omega), Nat.add_sub_cancel_left]
  have within : front.length ≤ (front ++ back).length := by simp
  rw [locate?]
  simp only [lineOf_eq cut, getElem?_start cut, stopOf?_eq cut, line, number, start, distance, add?,
    Option.bind_eq_bind, Option.bind_some]
  rw [if_pos (by omega), if_pos (by omega)]
  rfl

/-- A line is what is shown of it and carriage returns. -/
theorem exists_returns
    (line : List Char) :
    ∃ returns, line = trimmed line ++ List.replicate returns '\r' := by
  let cut := Cut.takeWhile (· == '\r') line.reverse
  have whole : cut.back.reverse ++ cut.front.reverse = line := by
    rw [← List.reverse_append, ← Cut.whole, Cut.whole_takeWhile, List.reverse_reverse]
  have returns := Cut.forall_mem_front_takeWhile (· == '\r') line.reverse
  refine ⟨cut.front.reverse.length, ?_⟩
  calc
    line = trimmed line ++ cut.front.reverse := whole.symm
    _ = trimmed line ++ List.replicate cut.front.reverse.length '\r' := by
      congr 1
      refine List.eq_replicate_of_mem fun c member => ?_
      exact beq_iff_eq.mp (returns c (List.mem_reverse.mp member))

theorem getLast?_trimmed
    (line : List Char) :
    (trimmed line).getLast? ≠ some '\r' := by
  have stop := Cut.head?_back_takeWhile (· == '\r') line.reverse
  intro last
  rw [trimmed, List.getLast?_reverse] at last
  rw [Cut.takeWhile, last] at stop
  cases stop

/-- A character of the line that is no carriage return is shown. -/
theorem getElem?_trimmed
    {content : List Char}
    {column : Nat}
    {c : Char}
    (found : content[column]? = some c)
    (other : c ≠ '\r') :
    (trimmed content)[column]? = some c := by
  obtain ⟨returns, whole⟩ := exists_returns content
  rw [whole] at found
  by_cases shown : column < (trimmed content).length
  · rwa [List.getElem?_append_left shown] at found
  · rw [List.getElem?_append_right (Nat.le_of_not_lt shown)] at found
    exact absurd (List.eq_of_mem_replicate (List.mem_of_getElem? found)) other

end LineTable

/-- In a short text, a step of the scanner yields nothing that starts with a blank. -/
theorem Scanner.Advance.exists_first
    {text : List Char}
    {place : Scanner}
    {step : Scanned}
    (advance : Advance place step)
    (short : text.length < wordCount)
    (stands : place.Stands text)
    (filled : step.lexeme.token.start < step.lexeme.token.stop) :
    ∃ c, text[step.lexeme.token.start]? = some c ∧ isBlank c = false := by
  obtain ⟨before, whole, offset⟩ := stands
  have first : ∀ {gap text' : List Char}, text = before ++ (gap ++ text') →
      text[toWord (before.length + gap.length)]? = text'.head? := by
    rintro gap text' rfl
    rw [← List.append_assoc, List.length_append] at short
    rw [← List.append_assoc, ← List.length_append,
      toWord_of_lt (Nat.lt_of_le_of_lt (Nat.le_add_right _ _) short),
      List.getElem?_append_right (Nat.le_refl _), Nat.sub_self, List.head?_eq_getElem?]
  cases advance with
  | @token gap text' reading place skipped bare found =>
    simp only at whole offset
    subst offset
    cases text' with
    | nil => cases found
    | cons c rest => exact ⟨c, first whole, (startsGap_eq_false_iff.mp bare).2⟩
  | @assembler gap text' place blank bare =>
    simp only at whole offset
    subst offset
    cases text' with
    | nil =>
      have empty : (assemblerText []).front = [] :=
        (List.append_eq_nil_iff.mp (whole_assemblerText [])).1
      simp [tokenAt, lexemeAt, empty] at filled
    | cons c rest => exact ⟨c, first whole, by simpa using bare⟩
  | stray => exact absurd filled (Nat.lt_irrefl _)
  | unclosed => exact absurd filled (Nat.lt_irrefl _)

/-- In a short text, a token that is not empty starts with a character that is no blank. -/
theorem TokenStream.exists_first
    {name : String}
    {text : List Char}
    {token : Token}
    (short : text.length < wordCount)
    (member : token ∈ (ofText name text).tokens)
    (filled : token.start < token.stop) :
    ∃ c, text[token.start]? = some c ∧ isBlank c = false ∧
      ((ofText name text).sourceText token).head? = some c := by
  rw [tokens_ofText] at member
  obtain ⟨step, among, rfl⟩ := List.mem_map.mp member
  obtain ⟨place, stands, rfl⟩ := Scanner.exists_of_mem_run (Scanner.stands_ofText _) among
  obtain ⟨c, found, visible⟩ := (Scanner.advance_next place).exists_first short stands filled
  refine ⟨c, found, visible, ?_⟩
  rw [sourceText, List.head?_drop, List.getElem?_take_of_lt filled]
  exact found

/-- The location of a token is computed, and it shows the line that the token starts in. -/
structure TokenStream.Located (stream : TokenStream) (token : Token) : Prop where
  computed : stream.locate? token = some (stream.location token)
  file : (stream.location token).file = stream.name
  line : (stream.location token).line = 1 + (stream.text.take token.start).count '\n'
  cut : ∃ earlier front back later, LineCut stream.text token.start earlier front back later ∧
    (stream.location token).column = 1 + front.length ∧
    (∃ returns,
      front ++ back = (stream.location token).text.toList ++ List.replicate returns '\r') ∧
    (stream.location token).text.toList.getLast? ≠ some '\r'

namespace TokenStream

variable
  {stream : TokenStream}
  {token other : Token}
  {earlier front back later : List Char}

/-- The line table finds the place of a token in the line that is cut. -/
theorem locate?_of_cut
    (small : stream.text.length < 4294967295)
    (cut : LineCut stream.text token.start earlier front back later) :
    stream.locate? token =
      some ⟨stream.name, earlier.count '\n' + 1, front.length + 1,
        String.ofList (LineTable.trimmed (front ++ back))⟩ := by
  rw [locate?, LineTable.ofText?_eq (Nat.lt_succ_of_lt small)]
  exact LineTable.locate?_of_cut cut small stream.name

theorem location_of_cut
    (small : stream.text.length < 4294967295)
    (cut : LineCut stream.text token.start earlier front back later) :
    stream.location token =
      ⟨stream.name, earlier.count '\n' + 1, front.length + 1,
        String.ofList (LineTable.trimmed (front ++ back))⟩ := by
  rw [location, locate?_of_cut small cut, Option.getD_some]

theorem located
    (small : stream.text.length < 4294967295)
    (within : token.start ≤ stream.text.length) :
    stream.Located token := by
  obtain ⟨earlier, front, back, later, cut⟩ := LineCut.exists_cut within
  have place := location_of_cut small cut
  refine ⟨(locate?_of_cut small cut).trans (congrArg some place.symm), ?_, ?_,
    earlier, front, back, later, cut, ?_⟩
  · rw [place]
  · rw [place, cut.count_take, Nat.add_comm]
  · rw [place, String.toList_ofList]
    exact ⟨Nat.add_comm _ _, LineTable.exists_returns _, LineTable.getLast?_trimmed _⟩

/-- The number of a line tells where it starts, and the column how far from there. -/
theorem start_eq_of_location
    (small : stream.text.length < 4294967295)
    (within : token.start ≤ stream.text.length)
    (within' : other.start ≤ stream.text.length)
    (line : (stream.location token).line = (stream.location other).line)
    (column : (stream.location token).column = (stream.location other).column) :
    token.start = other.start := by
  obtain ⟨earlier, front, back, later, cut⟩ := LineCut.exists_cut within
  obtain ⟨earlier', front', back', later', cut'⟩ := LineCut.exists_cut within'
  simp only [location_of_cut small cut, location_of_cut small cut', Nat.add_right_cancel_iff]
    at line column
  have start := LineTable.getElem?_start cut
  rw [line, LineTable.getElem?_start cut', Option.some.injEq] at start
  rw [cut.reached, cut'.reached, start, column]

/-- The first character of a token is shown at its column. -/
theorem getElem?_column
    {c : Char}
    (small : stream.text.length < 4294967295)
    (cut : LineCut stream.text token.start earlier front back later)
    (found : stream.text[token.start]? = some c)
    (visible : isBlank c = false) :
    (stream.location token).text.toList[(stream.location token).column - 1]? = some c := by
  have other : ∀ d, isBlank d = true → c ≠ d := by
    rintro d blank rfl
    cases visible.symm.trans blank
  -- neither the line feed after the line nor a carriage return at its end
  have inLine : (front ++ back)[front.length]? = some c := by
    rw [cut.whole, cut.reached, List.append_assoc, List.getElem?_append_right (by omega),
      Nat.add_sub_cancel_left, List.append_assoc, List.getElem?_append_right (Nat.le_refl _),
      Nat.sub_self] at found
    rw [List.getElem?_append_right (Nat.le_refl _), Nat.sub_self]
    cases back with
    | cons d back => exact found
    | nil =>
      rcases cut.ends with rfl | ⟨after, rfl⟩
      · cases found
      · exact absurd (Option.some.inj found).symm (other '\n' rfl)
  rw [location_of_cut small cut, String.toList_ofList, Nat.add_sub_cancel]
  exact LineTable.getElem?_trimmed inLine (other '\r' rfl)

end TokenStream

/-- Locations are exact and can be traced back.  In a source of fewer characters than machine words,
the line table locates every token without a failure; the location has the number of the line and
of the column and shows the line; it is that of one offset only; and a token that is not empty
starts with the character that is shown at its column. -/
theorem Source.locations_exact
    (source : Source)
    (small : source.text.length < 4294967295) :
    (∀ token : Token, token.start ≤ source.text.length →
      (TokenStream.ofSource source).Located token) ∧
    (∀ first second : Token,
      first.start ≤ source.text.length → second.start ≤ source.text.length →
      ((TokenStream.ofSource source).location first).line =
        ((TokenStream.ofSource source).location second).line →
      ((TokenStream.ofSource source).location first).column =
        ((TokenStream.ofSource source).location second).column →
      first.start = second.start) ∧
    ∀ token ∈ (TokenStream.ofSource source).tokens, token.start < token.stop →
      ∃ c, ((TokenStream.ofSource source).sourceText token).head? = some c ∧
        ((TokenStream.ofSource source).location token).text.toList[
          ((TokenStream.ofSource source).location token).column - 1]? = some c := by
  refine ⟨?_, ?_, ?_⟩
  · intro token within
    exact TokenStream.located small within
  · intro first second within within' line column
    exact TokenStream.start_eq_of_location small within within' line column
  · intro token member filled
    obtain ⟨c, found, visible, head⟩ :=
      TokenStream.exists_first (Nat.lt_succ_of_lt small) member filled
    obtain ⟨within, -⟩ := List.getElem?_eq_some_iff.mp found
    obtain ⟨earlier, front, back, later, cut⟩ := LineCut.exists_cut (Nat.le_of_lt within)
    exact ⟨c, head, TokenStream.getElem?_column small cut found visible⟩

/-- The theorem applies to a name behind a blank on a line that a carriage return ends, and to the
end of the file on the line after it, which is empty. -/
theorem Source.locations_exact_returns :
    (Source.ofText "M" "a\n b\r\n").text.length < 4294967295 ∧
      (TokenStream.ofSource (.ofText "M" "a\n b\r\n")).tokens =
        [⟨.ident, 0, 1⟩, ⟨.ident, 3, 4⟩, ⟨.endOfFile, 6, 6⟩] ∧
      (TokenStream.ofSource (.ofText "M" "a\n b\r\n")).Located ⟨.ident, 3, 4⟩ ∧
      (TokenStream.ofSource (.ofText "M" "a\n b\r\n")).locate? ⟨.ident, 3, 4⟩ =
        some ⟨"M", 2, 2, " b"⟩ ∧
      (TokenStream.ofSource (.ofText "M" "a\n b\r\n")).Located ⟨.endOfFile, 6, 6⟩ ∧
      (TokenStream.ofSource (.ofText "M" "a\n b\r\n")).locate? ⟨.endOfFile, 6, 6⟩ =
        some ⟨"M", 3, 1, ""⟩ := by
  have small : (Source.ofText "M" "a\n b\r\n").text.length < 4294967295 := by decide +kernel
  obtain ⟨located, -, -⟩ := Source.locations_exact (.ofText "M" "a\n b\r\n") small
  have name := located ⟨.ident, 3, 4⟩ (by decide +kernel)
  have last := located ⟨.endOfFile, 6, 6⟩ (by decide +kernel)
  refine ⟨small, by decide +kernel, name, ?_, last, ?_⟩
  · rw [name.computed]
    decide +kernel
  · rw [last.computed]
    decide +kernel

end Oberon
