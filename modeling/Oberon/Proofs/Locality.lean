import Oberon.Proofs.Partition

/-!
# Readers look no further than they read

What a reader makes of a text depends on the characters that it takes, and on nothing behind them:
the same characters before another text give the same result, as long as that text begins with no
character that the reader would go on with (`Scan.read?_append`).  Blanks and opening parentheses
are such characters for every reader (`Scan.endsToken`); a string that is left open has to stay at
the end.

`before` puts another text behind what was read.

Assembler text ends between words (`Scan.apart_beforeEnd`), and so is the same before any blanks and
an `END` (`Scan.assemblerText_append`).
-/

namespace Oberon.Scan

/-- The characters that continue no token. -/
def tokenEnds : List Char := [' ', '\t', '\r', '\n', '(']

/-- True of a text that continues no token: it is empty or starts with a blank or a parenthesis. -/
def endsToken (text : List Char) : Bool := text.head?.all tokenEnds.contains

/-- The same characters with another text behind them. -/
def Verdict.before (verdict : Verdict) (back : List Char) : Verdict :=
  ⟨⟨verdict.cut.front, back⟩, verdict.valid⟩

/-- The same token with another text behind it. -/
def Reading.before (reading : Reading) (back : List Char) : Reading :=
  ⟨reading.symbol, ⟨reading.cut.front, back⟩, reading.flaws⟩

@[simp] theorem Verdict.before_after
    (verdict : Verdict)
    (first back : List Char) :
    (verdict.after first).before back = (verdict.before back).after first := rfl

/-- A test that fails on blanks and parentheses fails on what ends a token. -/
theorem any_head?_of_endsToken
    {back : List Char}
    (test : Char → Bool)
    (ends : endsToken back = true)
    (others : tokenEnds.any test = false) :
    back.head?.any test = false := by
  cases back with
  | nil => rfl
  | cons c back =>
    have member : c ∈ tokenEnds := List.contains_iff_mem.mp ends
    exact Bool.eq_false_iff.mpr (List.any_eq_false.mp others c member)

theorem any_head?_append
    {test : Char → Bool}
    {front back : List Char}
    (inside : front.head?.any test = false)
    (behind : back.head?.any test = false) :
    (front ++ back).head?.any test = false := by
  cases front with
  | nil => exact behind
  | cons c front => exact inside

section Digits

variable
  {isDigit : Char → Bool}
  {back : List Char}

theorem moreDigits_of_stop
    (stops : back.head?.any isDigit = false)
    (apart : back.head? ≠ some groupMark) :
    moreDigits isDigit back = ⟨.start back, true⟩ := by
  fun_cases moreDigits isDigit back <;> simp_all

/-- A separator that no digit follows ends the digits. -/
theorem moreDigits_of_dangling
    (stops : back.head?.any isDigit = false) :
    moreDigits isDigit (groupMark :: back) = ⟨⟨[groupMark], back⟩, false⟩ := by
  cases back with
  | nil => simp [moreDigits]
  | cons c back => simp_all [moreDigits]

theorem moreDigits_digit
    {c : Char}
    (apart : c ≠ groupMark)
    (digit : isDigit c = true)
    (rest : List Char) :
    moreDigits isDigit (c :: rest) = (moreDigits isDigit rest).after [c] := by
  cases rest with
  | nil => simp [moreDigits, apart, digit, Verdict.after, Cut.after, Cut.start]
  | cons d rest => simp [moreDigits, apart, digit]

theorem moreDigits_append
    (text : List Char)
    (stops : back.head?.any isDigit = false)
    (apart : back.head? ≠ some groupMark) :
    moreDigits isDigit ((moreDigits isDigit text).cut.front ++ back) =
      (moreDigits isDigit text).before back := by
  fun_induction moreDigits isDigit text with
  | case1 => exact moreDigits_of_stop stops apart
  | case2 => exact moreDigits_of_dangling stops
  | case3 c other digit =>
    rw [List.singleton_append, moreDigits_digit other digit, moreDigits_of_stop stops apart]
    rfl
  | case4 => exact moreDigits_of_stop stops apart
  | case5 next rest digit ih =>
    have group : moreDigits isDigit (groupMark :: next ::
        ((moreDigits isDigit rest).cut.front ++ back)) =
          (moreDigits isDigit ((moreDigits isDigit rest).cut.front ++ back)).after
            [groupMark, next] := by
      rw [moreDigits, if_pos rfl, if_pos digit]
    rw [Verdict.before_after, ← ih, ← group]
    rfl
  | case6 => exact moreDigits_of_dangling stops
  | case7 c next rest other digit ih =>
    rw [Verdict.before_after, ← ih]
    exact moreDigits_digit other digit _
  | case8 => exact moreDigits_of_stop stops apart

theorem digitGroups_of_stop
    (stops : back.head?.any isDigit = false) :
    digitGroups isDigit back = ⟨.start back, false⟩ := by
  cases back with
  | nil => rfl
  | cons c back => simp_all [digitGroups]

theorem digitGroups_append
    (text : List Char)
    (stops : back.head?.any isDigit = false)
    (apart : back.head? ≠ some groupMark) :
    digitGroups isDigit ((digitGroups isDigit text).cut.front ++ back) =
      (digitGroups isDigit text).before back := by
  fun_cases digitGroups isDigit text with
  | case1 => exact digitGroups_of_stop stops
  | case2 c rest digit =>
    rw [Verdict.before_after, ← moreDigits_append rest stops apart]
    simp [Cut.after, digitGroups, digit]
  | case3 => exact digitGroups_of_stop stops

/-- Digits are read as far as there are any. -/
theorem any_head?_back_digitGroups
    (isDigit : Char → Bool)
    (text : List Char) :
    (digitGroups isDigit text).cut.back.head?.any isDigit = false := by
  have more : ∀ text, (moreDigits isDigit text).cut.back.head?.any isDigit = false := by
    intro text
    fun_induction moreDigits isDigit text <;> simp_all [Verdict.after, Cut.after, Cut.start]
  fun_cases digitGroups isDigit text with
  | case1 => rfl
  | case2 c rest => exact more rest
  | case3 c rest other => simpa [Cut.start] using other

end Digits

section Fraction

variable {back : List Char}

theorem sign_append
    (text : List Char)
    (stops : back.head?.any (fun c => c == '+' || c == '-') = false) :
    sign ((sign text).front ++ back) = ⟨(sign text).front, back⟩ := by
  fun_cases sign text with
  | case1 => rfl
  | case2 => rfl
  | case3 =>
    rw [Cut.start, List.nil_append]
    cases back with
    | nil => rfl
    | cons c back =>
      rw [sign]
      · rfl
      · intro rest same
        cases same
        cases stops
      · intro rest same
        cases same
        cases stops

theorem scaleFactor_append
    (text : List Char)
    (ends : endsToken back = true) :
    scaleFactor ((scaleFactor text).cut.front ++ back) = (scaleFactor text).before back := by
  have stays : scaleFactor back = ⟨.start back, true⟩ := by
    cases back with
    | nil => rfl
    | cons c back =>
      have other : c ≠ 'E' ∧ c ≠ 'D' := by
        have fails := any_head?_of_endsToken (fun c => c == 'E' || c == 'D') ends rfl
        simpa using fails
      simp [scaleFactor, other]
  fun_cases scaleFactor text with
  | case1 => exact stays
  | case2 letter rest scale digits =>
    have inside : digits.front.head?.any (fun c => c == '+' || c == '-') = false := by
      cases front : digits.front with
      | nil => rfl
      | cons c others =>
        have digit := Cut.forall_mem_front_takeWhile isDecimal (sign rest).back c
          (front ▸ List.mem_cons_self)
        have other : c ≠ '+' ∧ c ≠ '-' := by
          constructor <;> rintro rfl <;> cases digit
        simp [other]
    have signed := sign_append rest (any_head?_append inside
      (any_head?_of_endsToken (fun c => c == '+' || c == '-') ends rfl))
    have taken := Cut.takeWhile_append (Cut.forall_mem_front_takeWhile isDecimal (sign rest).back)
      (any_head?_of_endsToken isDecimal ends rfl)
    have front : (digits.after (letter :: (sign rest).front)).front ++ back =
        letter :: ((sign rest).front ++ (digits.front ++ back)) := by simp [Cut.after]
    rw [front, scaleFactor, if_pos scale, signed, taken]
    rfl
  | case3 => exact stays

theorem any_head?_front_scaleFactor
    (text : List Char) :
    (scaleFactor text).cut.front.head?.any isDecimal = false := by
  fun_cases scaleFactor text with
  | case1 => rfl
  | case2 letter rest scale =>
    rcases scale with rfl | rfl
    · rfl
    · rfl
  | case3 => rfl

theorem fraction_append
    (text : List Char)
    (ends : endsToken back = true) :
    fraction ((fraction text).cut.front ++ back) = (fraction text).before back := by
  have scaled := scaleFactor_append (Cut.takeWhile isDecimal text).back ends
  have taken := Cut.takeWhile_append (Cut.forall_mem_front_takeWhile isDecimal text)
    (any_head?_append (any_head?_front_scaleFactor (Cut.takeWhile isDecimal text).back)
      (any_head?_of_endsToken isDecimal ends rfl))
  simp only [fraction, Verdict.cut_after, Cut.after, List.append_assoc, taken, scaled,
    Verdict.before_after]

end Fraction

section Number

variable {back : List Char}

theorem digitGroups_before
    {isDigit : Char → Bool}
    (text : List Char)
    (ends : endsToken back = true)
    (others : tokenEnds.any isDigit = false) :
    digitGroups isDigit ((digitGroups isDigit text).cut.front ++ back) =
      (digitGroups isDigit text).before back := by
  apply digitGroups_append text (any_head?_of_endsToken isDigit ends others)
  have apart := any_head?_of_endsToken (· == groupMark) ends rfl
  intro same
  simp [same] at apart

theorem hexadecimalNumber_append
    (text : List Char)
    (ends : endsToken back = true) :
    ∃ rest, (hexadecimalNumber text).cut.front ++ back = '0' :: 'x' :: rest ∧
      hexadecimalNumber rest = (hexadecimalNumber text).before back := by
  refine ⟨(digitGroups isHexadecimal text).cut.front ++ back, rfl, ?_⟩
  rw [hexadecimalNumber, digitGroups_before text ends rfl]
  rfl

/-- Characters that satisfy a test are taken, unless there are none in front. -/
theorem front_takeWhile_cases
    (test : Char → Bool)
    (text : List Char) :
    ((Cut.takeWhile test text).front = [] ∧ text.head?.any test = false) ∨
      ∃ c others, (Cut.takeWhile test text).front = c :: others ∧ test c = true ∧
        text.head? = some c := by
  cases text with
  | nil => exact .inl ⟨rfl, rfl⟩
  | cons c rest =>
    cases h : test c with
    | false => exact .inl ⟨by simp [Cut.takeWhile, h], by simp [h]⟩
    | true => exact .inr ⟨c, rest.takeWhile test, by simp [Cut.takeWhile, h], h, rfl⟩

theorem binaryNumber_append
    (text : List Char)
    (ends : endsToken back = true) :
    ∃ rest, (binaryNumber text).cut.front ++ back = '0' :: 'b' :: rest ∧
      binaryNumber rest = (binaryNumber text).before back := by
  have stops := any_head?_of_endsToken isDecimal ends rfl
  fun_cases binaryNumber text with
  | case1 digits complete =>
    refine ⟨digits.cut.front ++ back, rfl, ?_⟩
    have valid : digits.valid = true := (Bool.and_eq_true_iff.mp complete).1
    have same : digitGroups isBinary (digits.cut.front ++ back) = digits.before back :=
      digitGroups_before text ends rfl
    simp only [binaryNumber, same, Verdict.before, valid, stops]
    rfl
  | case2 digits incomplete stray =>
    have notBinary : digits.cut.back.head?.any isBinary = false :=
      any_head?_back_digitGroups isBinary text
    have taken : Cut.takeWhile isDecimal (stray.front ++ back) = ⟨stray.front, back⟩ :=
      Cut.takeWhile_append (Cut.forall_mem_front_takeWhile isDecimal _) stops
    refine ⟨digits.cut.front ++ (stray.front ++ back), by simp [numeral, Cut.after], ?_⟩
    rcases front_takeWhile_cases isDecimal digits.cut.back with
      ⟨nothing, none⟩ | ⟨c, others, front, digit, head⟩
    · -- no digit goes astray, so the binary digits are themselves malformed
      have invalid : digits.valid = false := by simpa [none] using incomplete
      have same : digitGroups isBinary (digits.cut.front ++ (stray.front ++ back)) =
          digits.before (stray.front ++ back) := by
        rw [nothing]
        exact digitGroups_before text ends rfl
      simp only [binaryNumber, same, Verdict.before, taken, invalid]
      rfl
    · have apart : c ≠ groupMark := by
        rintro rfl
        cases digit
      have same : digitGroups isBinary (digits.cut.front ++ (stray.front ++ back)) =
          digits.before (stray.front ++ back) := by
        apply digitGroups_append text
        · simpa [stray, front, head] using notBinary
        · simpa [stray, front] using apart
      have astray : (stray.front ++ back).head?.any isDecimal = true := by
        simp [stray, front, digit]
      simp only [binaryNumber, same, Verdict.before, taken, astray, Bool.not_true, Bool.and_false]
      rfl

/-- A mark of a number that is no digit ends its digits. -/
theorem digitGroups_append_cons
    {c : Char}
    (text back : List Char)
    (other : isHexadecimal c = false)
    (apart : c ≠ groupMark) :
    digitGroups isHexadecimal ((digitGroups isHexadecimal text).cut.front ++ c :: back) =
      (digitGroups isHexadecimal text).before (c :: back) := by
  apply digitGroups_append text
  · simpa using other
  · simpa using apart

/-- Without a mark after its digits a number is a decimal integer. -/
theorem plainNumber_of_endsToken
    {text : List Char}
    (ends : endsToken (digitGroups isHexadecimal text).cut.back = true) :
    plainNumber text =
      numeral .integer (digitGroups isHexadecimal text).cut
        ((digitGroups isHexadecimal text).valid &&
          !(digitGroups isHexadecimal text).cut.front.any isHexLetter) := by
  fun_cases plainNumber text with
  | case1 digits rest behind =>
    rw [behind] at ends
    cases ends
  | case2 digits rest behind =>
    rw [behind] at ends
    cases ends
  | case3 => rfl
  | case4 digits decimal rest behind =>
    rw [behind] at ends
    cases ends
  | case5 => rfl

theorem plainNumber_before
    (text : List Char)
    (ends : endsToken back = true) :
    plainNumber ((digitGroups isHexadecimal text).cut.front ++ back) =
      numeral .integer ⟨(digitGroups isHexadecimal text).cut.front, back⟩
        ((digitGroups isHexadecimal text).valid &&
          !(digitGroups isHexadecimal text).cut.front.any isHexLetter) := by
  have same := digitGroups_before text ends (rfl : tokenEnds.any isHexadecimal = false)
  rw [plainNumber_of_endsToken, same]
  · rfl
  · rwa [same]

/-- A fraction does not begin with a point, unless the text after it does. -/
theorem head?_front_fraction
    {text : List Char}
    (ends : endsToken back = true)
    (apart : text.head? ≠ some '.') :
    ((fraction text).cut.front ++ back).head? ≠ some '.' := by
  cases front : (fraction text).cut.front with
  | nil =>
    have none := any_head?_of_endsToken (· == '.') ends rfl
    intro same
    rw [List.nil_append] at same
    rw [same] at none
    cases none
  | cons c others =>
    have whole := whole_fraction text
    rw [Cut.whole, front] at whole
    rw [← whole] at apart
    exact apart

theorem plainNumber_append
    (text : List Char)
    (ends : endsToken back = true) :
    plainNumber ((plainNumber text).cut.front ++ back) = (plainNumber text).before back := by
  fun_cases plainNumber text with
  | case1 digits rest behind =>
    have same := digitGroups_append_cons text back (by decide : isHexadecimal 'H' = false)
      (by decide)
    simp only [numeral, List.append_assoc, List.singleton_append, digits]
    simp only [plainNumber, same, Verdict.before]
    rfl
  | case2 digits rest behind =>
    have same := digitGroups_append_cons text back (by decide : isHexadecimal 'X' = false)
      (by decide)
    simp only [numeral, List.append_assoc, List.singleton_append, digits]
    simp only [plainNumber, same, Verdict.before]
    rfl
  | case3 => exact plainNumber_before text ends
  | case4 digits decimal rest behind other decimals =>
    have same := digitGroups_append_cons text ((fraction rest).cut.front ++ back)
      (by decide : isHexadecimal '.' = false) (by decide)
    have apart := head?_front_fraction ends other
    have scaled := fraction_append rest ends
    simp only [numeral, Cut.after, List.append_assoc, List.cons_append, List.nil_append, digits,
      decimals]
    simp only [plainNumber, same, Verdict.before, if_neg apart, scaled, Cut.after,
      List.append_assoc, List.cons_append, List.nil_append]
    rfl
  | case5 => exact plainNumber_before text ends

/-- Two characters that no text starts with are not made by a text that ends a token. -/
theorem append_ne_cons_cons
    {front old : List Char}
    {a b : Char}
    (filled : front ≠ [])
    (ends : endsToken back = true)
    (inner : endsToken [b] = false)
    (other : ∀ rest, front ++ old ≠ a :: b :: rest)
    (rest : List Char) :
    front ++ back ≠ a :: b :: rest := by
  intro same
  match front with
  | [] => exact filled rfl
  | [c] =>
    have behind : back = b :: rest := (List.cons.inj same).2
    rw [behind] at ends
    cases inner.symm.trans ends
  | c :: d :: others =>
    obtain ⟨rfl, second⟩ := List.cons.inj same
    obtain ⟨rfl, -⟩ := List.cons.inj second
    exact other (others ++ old) rfl

theorem number_append
    {c : Char}
    (rest : List Char)
    (digit : isDecimal c = true)
    (ends : endsToken back = true) :
    number ((number (c :: rest)).cut.front ++ back) = (number (c :: rest)).before back := by
  have filled := front_number_ne_nil rest digit
  have whole := whole_number (c :: rest)
  rw [Cut.whole] at whole
  generalize c :: rest = text at filled whole ⊢
  fun_cases number text with
  | case1 rest =>
    obtain ⟨others, front, same⟩ := hexadecimalNumber_append rest ends
    rw [front, number, same]
  | case2 rest =>
    obtain ⟨others, front, same⟩ := binaryNumber_append rest ends
    rw [front, number, same]
  | case3 _ noHex noBinary =>
    have plain : number text = plainNumber text := number.eq_3 text noHex noBinary
    rw [plain] at filled whole
    rw [← plainNumber_append text ends, number]
    · apply append_ne_cons_cons filled ends rfl
      rw [whole]
      exact noHex
    · apply append_ne_cons_cons filled ends rfl
      rw [whole]
      exact noBinary

end Number

theorem word_append
    {back : List Char}
    (text : List Char)
    (stops : back.head?.any continuesWord = false) :
    word ((word text).cut.front ++ back) = (word text).before back := by
  have taken := Cut.takeWhile_append (Cut.forall_mem_front_takeWhile continuesWord text) stops
  fun_cases word text with
  | case1 cut w found => simp only [word, cut, taken, found, Reading.before]
  | case2 cut missing => simp only [word, cut, taken, missing, Reading.before]

/-- Behind its first character no mark has one that ends a token. -/
theorem endsToken_of_mem_tail_spelling
    (m : Mark) :
    ∀ c ∈ m.spelling.toList.tail, endsToken [c] = false := by
  have none : m.spelling.toList.tail.any (fun c => endsToken [c]) = false := by
    cases m <;> rfl
  intro c member
  exact Bool.eq_false_iff.mpr (List.any_eq_false.mp none c member)

/-- A mark is the longest one before a text that ends a token. -/
theorem longest?_append
    {back : List Char}
    (m : Mark)
    (ends : endsToken back = true) :
    Mark.longest? (m.spelling.toList ++ back) = some m := by
  rw [Mark.longest?_eq_some_iff]
  refine ⟨List.prefix_append _ _, ?_⟩
  intro other fits
  apply Nat.le_of_not_lt
  intro longer
  -- a longer mark has the first character behind this one inside
  have extended : m.spelling.toList <+: other.spelling.toList := by
    apply List.prefix_of_prefix_length_le (List.prefix_append _ _) fits
    simp only [String.length_toList]
    omega
  obtain ⟨more, whole⟩ := extended
  rw [← whole, List.prefix_append_right_inj] at fits
  cases more with
  | nil =>
    rw [← String.length_toList, ← String.length_toList, ← whole, List.append_nil] at longer
    exact Nat.lt_irrefl _ longer
  | cons c more =>
    obtain ⟨rest, rfl⟩ := fits
    have inside : endsToken [c] = false := by
      apply endsToken_of_mem_tail_spelling other
      obtain ⟨first, others, spelled, -⟩ := exists_spelling_eq_cons m
      rw [← whole, spelled]
      simp
    cases inside.symm.trans ends

theorem quoted_append
    {delimiter : Char}
    {back : List Char}
    (rest : List Char)
    (last : .unterminatedString ∈ (quoted delimiter rest).flaws → back = []) :
    ∃ others, (quoted delimiter rest).cut.front ++ back = delimiter :: others ∧
      quoted delimiter others = (quoted delimiter rest).before back := by
  by_cases closes : delimiter ∈ rest
  · obtain ⟨body, others, rfl, free⟩ := List.eq_append_cons_of_mem closes
    rw [quoted_closed free]
    exact ⟨body ++ delimiter :: back, by simp, quoted_closed free back⟩
  · rw [quoted_unclosed closes] at last ⊢
    obtain rfl := last (List.mem_singleton_self _)
    exact ⟨rest, by simp, quoted_unclosed closes⟩

theorem escapedString_append
    {back : List Char}
    (rest : List Char)
    (last : .unterminatedString ∈ (escapedString rest).flaws → back = []) :
    ∃ others, (escapedString rest).cut.front ++ back = '\\' :: '"' :: others ∧
      escapedString others = (escapedString rest).before back := by
  by_cases closes : escapedQuote <:+: rest
  · obtain ⟨body, others, rfl, free⟩ := exists_first_escapedQuote closes
    rw [escapedString_closed free]
    exact ⟨body ++ escapedQuote ++ back, by simp [escapedQuote], escapedString_closed free back⟩
  · rw [escapedString_unclosed closes] at last ⊢
    obtain rfl := last (List.mem_singleton_self _)
    exact ⟨rest, by simp [escapedQuote], escapedString_unclosed closes⟩

/-- The characters of a token before another text give the same token. -/
theorem read?_append
    {text back : List Char}
    {reading : Reading}
    (found : read? text = some reading)
    (ends : endsToken back = true)
    (last : .unterminatedString ∈ reading.flaws → back = []) :
    read? (reading.cut.front ++ back) = some (reading.before back) := by
  cases recognized_of_read? found with
  | quoted rest quote =>
    obtain ⟨others, front, same⟩ := quoted_append rest last
    rw [front, ← same]
    exact (Recognized.quoted others quote).read?_eq
  | escaped rest =>
    obtain ⟨others, front, same⟩ := escapedString_append rest last
    rw [front, ← same]
    exact (Recognized.escaped others).read?_eq
  | @number c rest digit =>
    obtain ⟨others, front⟩ := List.head?_eq_some_iff.mp (head?_front_read? found)
    rw [← number_append rest digit ends, front]
    exact (Recognized.number (others ++ back) digit).read?_eq
  | @word c rest letter =>
    obtain ⟨others, front⟩ := List.head?_eq_some_iff.mp (head?_front_read? found)
    have stops := any_head?_of_endsToken continuesWord ends rfl
    rw [← word_append (c :: rest) stops, front]
    exact (Recognized.word (others ++ back) letter).read?_eq
  | @mark _ m longest plain =>
    have whole := whole_read? found
    have again := Recognized.mark (longest?_append m ends)
      (append_ne_cons_cons (front_read?_ne_nil found) ends rfl (whole ▸ plain))
    rw [again.read?_eq, List.drop_left]
    rfl

theorem startsGap_eq_false_iff
    {text : List Char} :
    startsGap text = false ↔
      (∀ rest, text ≠ '(' :: '*' :: rest) ∧ text.head?.any isBlank = false := by
  fun_cases startsGap text with
  | case1 rest => simp
  | case2 c rest other =>
    constructor
    · intro notBlank
      refine ⟨?_, notBlank⟩
      rintro others same
      cases same
      exact other others rfl rfl
    · exact And.right
  | case3 => simp

/-- A token does not turn into a gap. -/
theorem startsGap_append
    {text back : List Char}
    {reading : Reading}
    (found : read? text = some reading)
    (bare : startsGap text = false)
    (ends : endsToken back = true) :
    startsGap (reading.cut.front ++ back) = false := by
  have whole := whole_read? found
  have filled := front_read?_ne_nil found
  rw [← whole, Cut.whole, startsGap_eq_false_iff] at bare
  rw [startsGap_eq_false_iff]
  refine ⟨append_ne_cons_cons filled ends rfl bare.1, ?_⟩
  obtain ⟨c, others, front⟩ := List.exists_cons_of_ne_nil filled
  rw [front] at bare ⊢
  exact bare.2

section Assembler

/-- No word goes across the place between two texts. -/
def Apart (front back : List Char) : Prop :=
  front.getLast?.any continuesWord = false ∨ back.head?.any continuesWord = false

theorem startsWithEnd_iff
    {text : List Char} :
    startsWithEnd text = true ↔
      ∃ rest, text = 'E' :: 'N' :: 'D' :: rest ∧ rest.head?.any continuesWord = false := by
  fun_cases startsWithEnd text with
  | case1 rest => simp
  | case2 _ other =>
    constructor
    · nofun
    · rintro ⟨rest, same, -⟩
      exact absurd same (other rest)

theorem startsWithEnd_append
    {front back : List Char}
    (filled : front ≠ [])
    (apart : Apart front back) :
    startsWithEnd (front ++ back) = startsWithEnd front := by
  rw [Bool.eq_iff_iff, startsWithEnd_iff, startsWithEnd_iff]
  constructor
  · rintro ⟨rest, same, stops⟩
    match front with
    | [] => exact absurd rfl filled
    | [a] =>
      cases same
      rcases apart with inside | behind
      · cases inside
      · cases behind
    | [a, b] =>
      cases same
      rcases apart with inside | behind
      · cases inside
      · cases behind
    | [a, b, c] =>
      cases same
      exact ⟨[], rfl, rfl⟩
    | a :: b :: c :: d :: others =>
      cases same
      exact ⟨d :: others, rfl, stops⟩
  · rintro ⟨rest, rfl, stops⟩
    refine ⟨rest ++ back, rfl, ?_⟩
    cases rest with
    | nil =>
      rcases apart with inside | behind
      · cases inside
      · exact behind
    | cons c rest => exact stops

theorem Apart.tail
    {c : Char}
    {front back : List Char}
    (apart : Apart (c :: front) back)
    (filled : front ≠ []) :
    Apart front back := by
  rcases apart with inside | behind
  · rw [List.getLast?_cons_of_ne_nil filled] at inside
    exact .inl inside
  · exact .inr behind

/-- A character belongs to assembler text unless an `END` starts with it. -/
theorem beforeEnd_cons_iff
    {boundary : Bool}
    {c : Char}
    {rest front back : List Char} :
    beforeEnd boundary (c :: rest) = ⟨c :: front, back⟩ ↔
      (boundary && startsWithEnd (c :: rest)) = false ∧
        beforeEnd (!continuesWord c) rest = ⟨front, back⟩ := by
  rw [beforeEnd]
  cases found : boundary && startsWithEnd (c :: rest) with
  | true => simp [Cut.start]
  | false =>
    rcases beforeEnd (!continuesWord c) rest with ⟨others, tail⟩
    simp [Cut.after]

/-- Assembler text ends between words. -/
theorem apart_beforeEnd
    (boundary : Bool)
    (text : List Char) :
    Apart (beforeEnd boundary text).front (beforeEnd boundary text).back := by
  fun_induction beforeEnd boundary text with
  | case1 => exact .inl rfl
  | case2 => exact .inl rfl
  | case3 boundary c rest _ ih =>
    rw [Cut.after]
    by_cases filled : (beforeEnd (!continuesWord c) rest).front = []
    · rw [filled, List.append_nil]
      cases rest with
      | nil => exact .inr rfl
      | cons d others =>
        -- inside of a word another character would have been read
        left
        cases letter : continuesWord c with
        | false => simp [letter]
        | true => simp [letter, beforeEnd, Cut.after] at filled
    · rcases ih with inside | behind
      · left
        rw [List.singleton_append, List.getLast?_cons_of_ne_nil filled]
        exact inside
      · exact .inr behind

/-- A part of assembler text that ends between words is assembler text. -/
theorem beforeEnd_front
    {front back more tail : List Char}
    {boundary : Bool}
    (apart : Apart front back)
    (stops : beforeEnd boundary (front ++ back) = ⟨front ++ more, tail⟩) :
    beforeEnd boundary front = ⟨front, []⟩ := by
  induction front generalizing boundary with
  | nil => rfl
  | cons c front ih =>
    obtain ⟨other, next⟩ := beforeEnd_cons_iff.mp stops
    refine beforeEnd_cons_iff.mpr ⟨?_, ?_⟩
    · rwa [← startsWithEnd_append (List.cons_ne_nil _ _) apart]
    · by_cases filled : front = []
      · rw [filled]
        rfl
      · exact ih (apart.tail filled) next

theorem beforeEnd_append
    {front back blanks tail : List Char}
    {boundary : Bool}
    (apart : Apart front back)
    (inside : beforeEnd boundary front = ⟨front, []⟩)
    (behind : ∀ boundary, beforeEnd boundary back = ⟨blanks, tail⟩) :
    beforeEnd boundary (front ++ back) = ⟨front ++ blanks, tail⟩ := by
  induction front generalizing boundary with
  | nil => exact behind boundary
  | cons c front ih =>
    obtain ⟨other, next⟩ := beforeEnd_cons_iff.mp inside
    refine beforeEnd_cons_iff.mpr ⟨?_, ?_⟩
    · have same := startsWithEnd_append (List.cons_ne_nil c front) apart
      rw [List.cons_append] at same
      exact same ▸ other
    · by_cases filled : front = []
      · rw [filled]
        exact behind _
      · exact ih (apart.tail filled) next

theorem continuesWord_of_isBlank
    {c : Char}
    (blank : isBlank c = true) :
    continuesWord c = false := by
  simp only [isBlank, Bool.or_eq_true, beq_iff_eq] at blank
  rcases blank with ((rfl | rfl) | rfl) | rfl <;> rfl

theorem beforeEnd_blank
    {boundary : Bool}
    {c : Char}
    {rest front back : List Char}
    (blank : isBlank c = true)
    (next : beforeEnd true rest = ⟨front, back⟩) :
    beforeEnd boundary (c :: rest) = ⟨c :: front, back⟩ := by
  have letter := continuesWord_of_isBlank blank
  have other : startsWithEnd (c :: rest) = false := by
    rw [Bool.eq_false_iff, Ne, startsWithEnd_iff]
    rintro ⟨others, same, -⟩
    cases same
    cases letter
  refine beforeEnd_cons_iff.mpr ⟨?_, ?_⟩
  · rw [other, Bool.and_false]
  · rwa [letter]

/-- Blanks before an `END` are read up to it. -/
theorem beforeEnd_blanks
    {blanks rest : List Char}
    (blank : ∀ c ∈ blanks, isBlank c = true)
    (ends : rest = [] ∨ startsWithEnd rest = true) :
    beforeEnd true (blanks ++ rest) = ⟨blanks, rest⟩ := by
  induction blanks with
  | nil =>
    cases rest with
    | nil => rfl
    | cons c rest =>
      have found : startsWithEnd (c :: rest) = true := by simpa using ends
      rw [List.nil_append, beforeEnd, found]
      rfl
  | cons c blanks ih =>
    have others := ih fun d member => blank d (List.mem_cons_of_mem c member)
    exact beforeEnd_blank (blank c List.mem_cons_self) others

/-- Before an `END` there is no assembler text. -/
theorem assemblerText_of_end
    {rest : List Char}
    (ends : rest = [] ∨ startsWithEnd rest = true) :
    assemblerText rest = .start rest := by
  have nothing : beforeEnd true rest = ⟨[], rest⟩ :=
    beforeEnd_blanks (by simp : ∀ c ∈ [], isBlank c = true) ends
  rw [assemblerText, nothing]
  rfl

theorem trimEnd_append
    {front blanks back : List Char}
    (blank : ∀ c ∈ blanks, isBlank c = true)
    (bare : front.getLast?.any isBlank = false) :
    Cut.trimEnd ⟨front ++ blanks, back⟩ = ⟨front, blanks ++ back⟩ := by
  have taken :
      Cut.takeWhile isBlank (front ++ blanks).reverse = ⟨blanks.reverse, front.reverse⟩ := by
    rw [List.reverse_append]
    apply Cut.takeWhile_append
    · simpa using blank
    · rwa [List.head?_reverse]
  injection taken with skipped kept
  simp only [Cut.trimEnd, skipped, kept, List.reverse_reverse]

/-- Assembler text is what comes before an `END`, less the blanks at its end. -/
theorem exists_assemblerText
    (text : List Char) :
    ∃ front blanks back, beforeEnd true text = ⟨front ++ blanks, back⟩ ∧
      (∀ c ∈ blanks, isBlank c = true) ∧ front.getLast?.any isBlank = false ∧
        assemblerText text = ⟨front, blanks ++ back⟩ := by
  have whole := Cut.whole_takeWhile isBlank (beforeEnd true text).front.reverse
  have blank := Cut.forall_mem_front_takeWhile isBlank (beforeEnd true text).front.reverse
  have stops := Cut.head?_back_takeWhile isBlank (beforeEnd true text).front.reverse
  refine ⟨_, _, (beforeEnd true text).back, ?_, ?_, ?_, rfl⟩
  · rw [← List.reverse_append]
    exact congrArg (Cut.mk · _) (List.reverse_eq_iff.mp whole.symm)
  · intro c member
    exact blank c (List.mem_reverse.mp member)
  · rwa [List.getLast?_reverse]

theorem any_head?_blanks
    {blanks rest : List Char}
    (blank : ∀ c ∈ blanks, isBlank c = true)
    (parted : blanks = [] → rest.head?.any continuesWord = false) :
    (blanks ++ rest).head?.any continuesWord = false := by
  cases blanks with
  | nil => exact parted rfl
  | cons c blanks => exact continuesWord_of_isBlank (blank c List.mem_cons_self)

/-- Assembler text ends nowhere but at its end. -/
theorem beforeEnd_assemblerText
    (text : List Char) :
    beforeEnd true (assemblerText text).front = ⟨(assemblerText text).front, []⟩ := by
  obtain ⟨front, trimmed, tail, read, trimmedBlank, -, same⟩ := exists_assemblerText text
  have whole := whole_beforeEnd true text
  have between := apart_beforeEnd true text
  rw [read] at whole between
  rw [Cut.whole, List.append_assoc] at whole
  have apart : Apart front (trimmed ++ tail) := by
    rcases between with inside | behind
    · by_cases filled : trimmed = []
      · rw [filled, List.append_nil] at inside
        exact .inl inside
      · exact .inr (any_head?_blanks trimmedBlank fun empty => absurd empty filled)
    · exact .inr (any_head?_blanks trimmedBlank fun _ => behind)
  rw [same]
  rw [← whole] at read
  exact beforeEnd_front apart read

/-- Assembler text is the same before other blanks and an `END`. -/
theorem assemblerText_append
    {blanks rest : List Char}
    (text : List Char)
    (blank : ∀ c ∈ blanks, isBlank c = true)
    (ends : rest = [] ∨ startsWithEnd rest = true)
    (parted : blanks = [] → rest = []) :
    assemblerText ((assemblerText text).front ++ (blanks ++ rest)) =
      ⟨(assemblerText text).front, blanks ++ rest⟩ := by
  have inside := beforeEnd_assemblerText text
  obtain ⟨front, trimmed, tail, -, -, bare, same⟩ := exists_assemblerText text
  rw [same] at inside ⊢
  have behind : ∀ boundary, beforeEnd boundary (blanks ++ rest) = ⟨blanks, rest⟩ := by
    intro boundary
    cases blanks with
    | nil =>
      obtain rfl := parted rfl
      rfl
    | cons c blanks =>
      have others := beforeEnd_blanks (fun d member => blank d (List.mem_cons_of_mem c member)) ends
      exact beforeEnd_blank (blank c List.mem_cons_self) others
  have stops : (blanks ++ rest).head?.any continuesWord = false := by
    apply any_head?_blanks blank
    intro empty
    rw [parted empty]
    rfl
  rw [assemblerText, beforeEnd_append (.inr stops) inside behind, trimEnd_append blank bare]

end Assembler

end Oberon.Scan
