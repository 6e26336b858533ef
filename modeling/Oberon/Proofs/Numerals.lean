import Oberon.Proofs.Locality
import Oberon.Proofs.Reporting

/-!
# Numerals

The texts of numbers, as a grammar: runs of digits joined by group marks (`Grouped`), and the forms
that integers, character codes and real numbers can have (`Strict`).

A number is malformed exactly if its text has none of these forms (`flaws_number_eq_nil_iff`).  Both
directions go through the text itself: a strict text is read whole and without a flaw wherever a
blank, the end or a range follows it (`Strict.number_append`), and what was read of a text would be
read again without the rest of it.  A text that begins with `0b` and ends in a suffix is the
exception, since the letter is taken for that of a binary integer.
-/

namespace Oberon

namespace Scan

/-- Runs of digits, joined by group marks. -/
inductive Grouped (isDigit : Char → Bool) : List Char → Prop
  | run
      {run : List Char}
      (filled : run ≠ [])
      (digits : ∀ c ∈ run, isDigit c = true) :
      Grouped isDigit run
  | joined
      {run rest : List Char}
      (filled : run ≠ [])
      (digits : ∀ c ∈ run, isDigit c = true)
      (others : Grouped isDigit rest) :
      Grouped isDigit (run ++ groupMark :: rest)

/-- Nothing, or a letter, perhaps a sign, and digits. -/
inductive IsScale : List Char → Prop
  | none :
      IsScale []
  | some
      {letter : Char}
      {sign digits : List Char}
      (scales : letter = 'E' ∨ letter = 'D')
      (signed : sign = [] ∨ sign = ['+'] ∨ sign = ['-'])
      (filled : digits ≠ [])
      (decimal : ∀ c ∈ digits, isDecimal c = true) :
      IsScale (letter :: (sign ++ digits))

/-- Hexadecimal digits of which the first is decimal. -/
def IsHexadecimal (text : List Char) : Prop :=
  Grouped isHexadecimal text ∧ text.head?.any isDecimal = true

/-- The texts of well-formed numbers. -/
inductive Strict : Symbol → List Char → Prop
  | decimal
      {digits : List Char}
      (grouped : Grouped isDecimal digits) :
      Strict .integer digits
  | suffixed
      {digits : List Char}
      (hexadecimal : IsHexadecimal digits) :
      Strict .integer (digits ++ ['H'])
  | hexadecimal
      {digits : List Char}
      (grouped : Grouped isHexadecimal digits) :
      Strict .integer ('0' :: 'x' :: digits)
  | binary
      {digits : List Char}
      (grouped : Grouped isBinary digits) :
      Strict .integer ('0' :: 'b' :: digits)
  | character
      {digits : List Char}
      (hexadecimal : IsHexadecimal digits) :
      Strict .character (digits ++ ['X'])
  | real
      {digits decimals scale : List Char}
      (grouped : Grouped isDecimal digits)
      (fraction : ∀ c ∈ decimals, isDecimal c = true)
      (scaled : IsScale scale) :
      Strict .real (digits ++ '.' :: (decimals ++ scale))

/-- Texts that look like binary integers and end in a suffix. -/
def Overlaid (text : List Char) : Prop :=
  ∃ digits suffix, IsHexadecimal digits ∧ (suffix = 'H' ∨ suffix = 'X') ∧
    text = digits ++ [suffix] ∧ ['0', 'b'] <+: text

section Groups

variable {isDigit : Char → Bool} {text back : List Char}

theorem Grouped.cons
    {c : Char}
    (h : Grouped isDigit text)
    (digit : isDigit c = true) :
    Grouped isDigit (c :: text) := by
  cases h with
  | run filled digits => exact .run (List.cons_ne_nil _ _) (List.forall_mem_cons.mpr ⟨digit, digits⟩)
  | joined filled digits others =>
    exact .joined (List.cons_ne_nil _ _) (List.forall_mem_cons.mpr ⟨digit, digits⟩) others

theorem Grouped.mono
    {other : Char → Bool}
    (h : Grouped isDigit text)
    (wider : ∀ c, isDigit c = true → other c = true) :
    Grouped other text := by
  induction h with
  | run filled digits => exact .run filled fun c member => wider c (digits c member)
  | joined filled digits _ ih => exact .joined filled (fun c member => wider c (digits c member)) ih

/-- A group list starts with a digit. -/
theorem Grouped.exists_cons
    (h : Grouped isDigit text) :
    ∃ c rest, text = c :: rest ∧ isDigit c = true := by
  cases h with
  | run filled digits =>
    cases text with
    | nil => exact absurd rfl filled
    | cons c rest => exact ⟨c, rest, rfl, digits c List.mem_cons_self⟩
  | @joined run rest filled digits others =>
    cases run with
    | nil => exact absurd rfl filled
    | cons c run => exact ⟨c, run ++ groupMark :: rest, rfl, digits c List.mem_cons_self⟩

theorem Grouped.forall_mem
    (h : Grouped isDigit text) :
    ∀ c ∈ text, isDigit c = true ∨ c = groupMark := by
  induction h with
  | run filled digits => exact fun c member => .inl (digits c member)
  | joined filled digits _ ih =>
    intro c member
    rcases List.mem_append.mp member with early | late
    · exact .inl (digits c early)
    · rcases List.mem_cons.mp late with rfl | later
      · exact .inr rfl
      · exact ih c later

theorem moreDigits_run
    {run : List Char}
    (digits : ∀ c ∈ run, isDigit c = true)
    (mark : isDigit groupMark = false)
    (rest : List Char) :
    moreDigits isDigit (run ++ rest) = (moreDigits isDigit rest).after run := by
  induction run with
  | nil => rfl
  | cons c run ih =>
    have apart : c ≠ groupMark := by
      rintro rfl
      cases mark.symm.trans (digits _ List.mem_cons_self)
    rw [List.cons_append, moreDigits_digit apart (digits c List.mem_cons_self),
      ih fun d member => digits d (List.mem_cons_of_mem c member), Verdict.after_after]
    rfl

theorem digitGroups_run
    {run : List Char}
    (filled : run ≠ [])
    (digits : ∀ c ∈ run, isDigit c = true)
    (mark : isDigit groupMark = false)
    (rest : List Char) :
    digitGroups isDigit (run ++ rest) = (moreDigits isDigit rest).after run := by
  cases run with
  | nil => exact absurd rfl filled
  | cons c run =>
    rw [List.cons_append, digitGroups, if_pos (digits c List.mem_cons_self),
      moreDigits_run (fun d member => digits d (List.mem_cons_of_mem c member)) mark,
      Verdict.after_after]
    rfl

/-- A group list is read whole before anything that does not go on with it. -/
theorem Grouped.digitGroups_append
    (h : Grouped isDigit text)
    (mark : isDigit groupMark = false)
    (stops : back.head?.any isDigit = false)
    (apart : back.head? ≠ some groupMark) :
    digitGroups isDigit (text ++ back) = ⟨⟨text, back⟩, true⟩ := by
  induction h with
  | run filled digits =>
    rw [digitGroups_run filled digits mark, moreDigits_of_stop stops apart]
    simp [Verdict.after, Cut.after, Cut.start]
  | @joined run rest filled digits others ih =>
    obtain ⟨c, rest, rfl, digit⟩ := others.exists_cons
    have group : moreDigits isDigit (groupMark :: (c :: rest ++ back)) =
        (digitGroups isDigit (c :: rest ++ back)).after [groupMark] := by
      rw [List.cons_append, moreDigits, if_pos rfl, if_pos digit, digitGroups, if_pos digit,
        Verdict.after_after]
      rfl
    rw [List.append_assoc, List.cons_append, digitGroups_run filled digits mark, group, ih]
    rfl

/-- What is read without a flaw after a digit continues a group list. -/
theorem grouped_cons_of_valid
    {c : Char}
    (digit : isDigit c = true)
    (valid : (moreDigits isDigit text).valid = true) :
    Grouped isDigit (c :: (moreDigits isDigit text).cut.front) := by
  have single : ∀ {d}, isDigit d = true → Grouped isDigit [d] := fun digit =>
    .run (List.cons_ne_nil _ _) (List.forall_mem_singleton.mpr digit)
  fun_induction moreDigits isDigit text generalizing c with
  | case1 => exact single digit
  | case2 => cases valid
  | case3 d _ next => exact (single next).cons digit
  | case4 => exact single digit
  | case5 next rest found ih =>
    exact .joined (List.cons_ne_nil c []) (List.forall_mem_singleton.mpr digit) (ih found valid)
  | case6 => cases valid
  | case7 d next rest _ found ih => exact (ih found valid).cons digit
  | case8 => exact single digit

/-- What is read as digits without a flaw is a group list. -/
theorem grouped_of_valid
    (valid : (digitGroups isDigit text).valid = true) :
    Grouped isDigit (digitGroups isDigit text).cut.front := by
  cases text with
  | nil => cases valid
  | cons c rest =>
    by_cases digit : isDigit c = true
    · rw [digitGroups, if_pos digit] at valid ⊢
      exact grouped_cons_of_valid digit valid
    · rw [digitGroups, if_neg digit] at valid
      cases valid

/-- Nothing but digits and group marks is read as digits. -/
theorem forall_mem_front_digitGroups
    (isDigit : Char → Bool)
    (text : List Char) :
    ∀ c ∈ (digitGroups isDigit text).cut.front, isDigit c = true ∨ c = groupMark := by
  have more : ∀ text, ∀ c ∈ (moreDigits isDigit text).cut.front,
      isDigit c = true ∨ c = groupMark := by
    intro text
    fun_induction moreDigits isDigit text with
    | case1 => exact List.forall_mem_nil _
    | case2 => exact List.forall_mem_singleton.mpr (.inr rfl)
    | case3 c _ digit => exact List.forall_mem_singleton.mpr (.inl digit)
    | case4 => exact List.forall_mem_nil _
    | case5 next rest digit ih =>
      exact List.forall_mem_cons.mpr ⟨.inr rfl, List.forall_mem_cons.mpr ⟨.inl digit, ih⟩⟩
    | case6 => exact List.forall_mem_singleton.mpr (.inr rfl)
    | case7 c next rest _ digit ih => exact List.forall_mem_cons.mpr ⟨.inl digit, ih⟩
    | case8 => exact List.forall_mem_nil _
  fun_cases digitGroups isDigit text with
  | case1 => exact List.forall_mem_nil _
  | case2 c rest digit => exact List.forall_mem_cons.mpr ⟨.inl digit, more rest⟩
  | case3 => exact List.forall_mem_nil _

end Groups

theorem IsHexadecimal.exists_cons
    {text : List Char}
    (h : IsHexadecimal text) :
    ∃ c rest, text = c :: rest ∧ isDecimal c = true := by
  obtain ⟨c, rest, rfl, -⟩ := h.1.exists_cons
  exact ⟨c, rest, rfl, h.2⟩

/-- A strict text starts with a decimal digit. -/
theorem Strict.exists_cons
    {symbol : Symbol}
    {text : List Char}
    (h : Strict symbol text) :
    ∃ c rest, text = c :: rest ∧ isDecimal c = true := by
  cases h with
  | decimal grouped => exact grouped.exists_cons
  | suffixed hexadecimal =>
    obtain ⟨c, rest, rfl, digit⟩ := hexadecimal.exists_cons
    exact ⟨c, _, rfl, digit⟩
  | hexadecimal => exact ⟨'0', _, rfl, rfl⟩
  | binary => exact ⟨'0', _, rfl, rfl⟩
  | character hexadecimal =>
    obtain ⟨c, rest, rfl, digit⟩ := hexadecimal.exists_cons
    exact ⟨c, _, rfl, digit⟩
  | real grouped =>
    obtain ⟨c, rest, rfl, digit⟩ := grouped.exists_cons
    exact ⟨c, _, rfl, digit⟩

section Classes

variable {c : Char} {text : List Char}

theorem isHexadecimal_of_isDecimal
    (digit : isDecimal c = true) :
    isHexadecimal c = true := by
  rw [isHexadecimal, digit, Bool.true_or]

/-- A digit does not begin a gap. -/
theorem startsGap_of_isDecimal
    (digit : isDecimal c = true)
    (rest : List Char) :
    startsGap (c :: rest) = false := by
  have other : ∀ d, isDecimal d = false → c ≠ d := by
    rintro d different rfl
    cases digit.symm.trans different
  rw [startsGap_eq_false_iff]
  refine ⟨fun others same => other '(' rfl (List.cons.inj same).1, ?_⟩
  simp [isBlank, other ' ' rfl, other '\t' rfl, other '\r' rfl, other '\n' rfl]

theorem isHexLetter_of_isDecimal
    (digit : isDecimal c = true) :
    isHexLetter c = false := by
  simp only [isDecimal, Char.isDigit, isHexLetter, Bool.and_eq_true, decide_eq_true_eq, ge_iff_le,
    UInt32.le_iff_toNat_le, Char.le_def, Bool.or_eq_false_iff, Bool.and_eq_false_iff,
    decide_eq_false_iff_not] at digit ⊢
  simp at digit ⊢
  omega

/-- Decimal digits in groups have no hexadecimal ones among them. -/
theorem Grouped.any_isHexLetter
    (h : Grouped isDecimal text) :
    text.any isHexLetter = false := by
  refine List.any_eq_false.mpr fun c member => ?_
  rcases h.forall_mem c member with digit | rfl
  · simp [isHexLetter_of_isDecimal digit]
  · decide

/-- Digits in groups that have no hexadecimal ones among them are decimal. -/
theorem Grouped.decimal
    (h : Grouped isHexadecimal text)
    (plain : text.any isHexLetter = false) :
    Grouped isDecimal text := by
  have narrower : ∀ {run : List Char}, (∀ c ∈ run, isHexadecimal c = true) →
      run.any isHexLetter = false → ∀ c ∈ run, isDecimal c = true := by
    intro run digits plain c member
    have letter := List.any_eq_false.mp plain c member
    have digit := digits c member
    rw [isHexadecimal, Bool.or_eq_true] at digit
    exact digit.resolve_right letter
  induction h with
  | run filled digits => exact .run filled (narrower digits plain)
  | joined filled digits _ ih =>
    rw [List.any_append, Bool.or_eq_false_iff, List.any_cons, Bool.or_eq_false_iff] at plain
    exact .joined filled (narrower digits plain.1) (ih plain.2.2)

end Classes

/-- What may stand behind a number: what ends every token, or a range behind an integer. -/
inductive Clear : Symbol → List Char → Prop
  | ends
      {back : List Char}
      (symbol : Symbol)
      (ends : endsToken back = true) :
      Clear symbol back
  | range
      (rest : List Char) :
      Clear .integer ('.' :: '.' :: rest)

section Completeness

variable {symbol : Symbol} {text digits back tail : List Char}

theorem Clear.any_head?
    (clear : Clear symbol back)
    (test : Char → Bool)
    (others : ('.' :: tokenEnds).any test = false) :
    back.head?.any test = false := by
  rw [List.any_cons, Bool.or_eq_false_iff] at others
  cases clear with
  | ends _ ends => exact any_head?_of_endsToken test ends others.2
  | range rest => exact others.1

theorem Clear.head?_ne
    (clear : Clear symbol back)
    {c : Char}
    (others : ('.' :: tokenEnds).any (· == c) = false) :
    back.head? ≠ some c := by
  intro same
  have none := clear.any_head? (· == c) others
  rw [same] at none
  simp at none

/-- Two characters that digits do not start with are not made by what stands behind them. -/
theorem append_ne_of_head?
    {a b : Char}
    (filled : digits ≠ [])
    (inner : ¬[a, b] <+: digits)
    (behind : tail.head? ≠ some b)
    (rest : List Char) :
    digits ++ tail ≠ a :: b :: rest := by
  intro same
  match digits with
  | [] => exact filled rfl
  | [c] =>
    obtain rfl : tail = b :: rest := (List.cons.inj same).2
    exact behind rfl
  | c :: d :: others =>
    obtain ⟨rfl, second⟩ := List.cons.inj same
    obtain ⟨rfl, -⟩ := List.cons.inj second
    exact inner ⟨others, rfl⟩

/-- Digits in groups that do not look like another base are read as a plain number. -/
theorem number_eq_plainNumber
    (grouped : Grouped isHexadecimal digits)
    (inner : ¬['0', 'b'] <+: digits)
    (hex : tail.head? ≠ some 'x')
    (binary : tail.head? ≠ some 'b') :
    number (digits ++ tail) = plainNumber (digits ++ tail) := by
  obtain ⟨c, rest, same, -⟩ := grouped.exists_cons
  have filled : digits ≠ [] := same ▸ List.cons_ne_nil c rest
  have noHex : ¬['0', 'x'] <+: digits := by
    intro starts
    have member : 'x' ∈ digits := starts.subset (by simp)
    exact absurd (grouped.forall_mem 'x' member) (by decide)
  exact number.eq_3 _ (append_ne_of_head? filled noHex hex)
    (append_ne_of_head? filled inner binary)

/-- A suffix ends its digits, whatever comes next. -/
theorem number_suffixed
    {suffix : Char}
    (hexadecimal : IsHexadecimal digits)
    (inner : ¬['0', 'b'] <+: digits)
    (kind : suffix = 'H' ∧ symbol = .integer ∨ suffix = 'X' ∧ symbol = .character)
    (back : List Char) :
    number (digits ++ suffix :: back) = ⟨symbol, ⟨digits ++ [suffix], back⟩, []⟩ := by
  have apart : isHexadecimal suffix = false ∧ suffix ≠ groupMark ∧ suffix ≠ 'x' ∧ suffix ≠ 'b' := by
    rcases kind with ⟨rfl, -⟩ | ⟨rfl, -⟩ <;> decide
  have read : digitGroups isHexadecimal (digits ++ suffix :: back) =
      ⟨⟨digits, suffix :: back⟩, true⟩ :=
    hexadecimal.1.digitGroups_append rfl apart.1 (by simpa using apart.2.1)
  rw [number_eq_plainNumber hexadecimal.1 inner (by simpa using apart.2.2.1)
    (by simpa using apart.2.2.2), plainNumber]
  rcases kind with ⟨rfl, rfl⟩ | ⟨rfl, rfl⟩
  · simp only [read]
    rfl
  · simp only [read]
    rfl

theorem Grouped.not_binary
    (grouped : Grouped isDecimal digits) :
    ¬['0', 'b'] <+: digits := by
  intro starts
  have member : 'b' ∈ digits := starts.subset (by simp)
  exact absurd (grouped.forall_mem 'b' member) (by decide)

theorem number_decimal
    (grouped : Grouped isDecimal digits)
    (clear : Clear .integer back) :
    number (digits ++ back) = ⟨.integer, ⟨digits, back⟩, []⟩ := by
  have wider := grouped.mono fun c => isHexadecimal_of_isDecimal
  have read := wider.digitGroups_append rfl (clear.any_head? isHexadecimal rfl)
    (clear.head?_ne rfl)
  rw [number_eq_plainNumber wider grouped.not_binary (clear.head?_ne rfl) (clear.head?_ne rfl)]
  cases clear with
  | ends _ ends =>
    rw [plainNumber_of_endsToken (by rwa [read]), read, grouped.any_isHexLetter]
    rfl
  | range rest =>
    rw [plainNumber]
    simp only [read, grouped.any_isHexLetter]
    rfl

theorem sign_append_digits
    {signs digits : List Char}
    (signed : signs = [] ∨ signs = ['+'] ∨ signs = ['-'])
    (filled : digits ≠ [])
    (decimal : ∀ c ∈ digits, isDecimal c = true)
    (back : List Char) :
    sign (signs ++ digits ++ back) = ⟨signs, digits ++ back⟩ := by
  rcases signed with rfl | rfl | rfl
  · cases digits with
    | nil => exact absurd rfl filled
    | cons c digits =>
      have digit := decimal c List.mem_cons_self
      rw [List.nil_append, List.cons_append, sign]
      · rfl
      · intro rest same
        cases same
        cases digit
      · intro rest same
        cases same
        cases digit
  · rfl
  · rfl

theorem IsScale.scaleFactor_append
    {scale : List Char}
    (scaled : IsScale scale)
    (ends : endsToken back = true) :
    scaleFactor (scale ++ back) = ⟨⟨scale, back⟩, true⟩ := by
  cases scaled with
  | none =>
    cases back with
    | nil => rfl
    | cons c back =>
      have other : c ≠ 'E' ∧ c ≠ 'D' := by
        simpa using any_head?_of_endsToken (fun c => c == 'E' || c == 'D') ends rfl
      simp [scaleFactor, other, Cut.start]
  | some scales signed filled decimal =>
    have taken := Cut.takeWhile_append decimal (any_head?_of_endsToken isDecimal ends rfl)
    rw [List.cons_append, scaleFactor, if_pos scales, sign_append_digits signed filled decimal]
    simp [taken, filled, Cut.after]

/-- A scale factor starts with neither a digit nor a point. -/
theorem IsScale.any_head?_append
    {scale : List Char}
    (scaled : IsScale scale)
    (ends : endsToken back = true) :
    (scale ++ back).head?.any (fun c => isDecimal c || c == '.') = false := by
  refine Scan.any_head?_append ?_ (any_head?_of_endsToken _ ends rfl)
  cases scaled with
  | none => rfl
  | some scales => rcases scales with rfl | rfl <;> rfl

theorem fraction_append_scale
    {decimals scale : List Char}
    (decimal : ∀ c ∈ decimals, isDecimal c = true)
    (scaled : IsScale scale)
    (ends : endsToken back = true) :
    fraction (decimals ++ (scale ++ back)) = ⟨⟨decimals ++ scale, back⟩, true⟩ := by
  have stops : (scale ++ back).head?.any isDecimal = false := by
    have none := scaled.any_head?_append ends
    generalize scale ++ back = rest at none
    cases rest with
    | nil => rfl
    | cons c rest => exact (Bool.or_eq_false_iff.mp none).1
  rw [fraction, Cut.takeWhile_append decimal stops]
  simp only [scaled.scaleFactor_append ends]
  rfl

theorem number_real
    {decimals scale : List Char}
    (grouped : Grouped isDecimal digits)
    (decimal : ∀ c ∈ decimals, isDecimal c = true)
    (scaled : IsScale scale)
    (ends : endsToken back = true) :
    number (digits ++ '.' :: (decimals ++ (scale ++ back))) =
      ⟨.real, ⟨digits ++ '.' :: (decimals ++ scale), back⟩, []⟩ := by
  have wider := grouped.mono fun c => isHexadecimal_of_isDecimal
  have read : digitGroups isHexadecimal (digits ++ '.' :: (decimals ++ (scale ++ back))) =
      ⟨⟨digits, '.' :: (decimals ++ (scale ++ back))⟩, true⟩ :=
    wider.digitGroups_append rfl rfl (by simp [groupMark])
  have single : (decimals ++ (scale ++ back)).head? ≠ some '.' := by
    intro same
    cases decimals with
    | nil =>
      have none := scaled.any_head?_append ends
      rw [List.nil_append] at same
      rw [same] at none
      cases none
    | cons c decimals =>
      cases same
      cases decimal '.' List.mem_cons_self
  rw [number_eq_plainNumber wider grouped.not_binary (by simp) (by simp), plainNumber]
  simp only [read, if_neg single, fraction_append_scale decimal scaled ends,
    grouped.any_isHexLetter]
  simp [numeral, Cut.after]

/-- A strict text is read whole and without a flaw. -/
theorem Strict.number_append
    (strict : Strict symbol text)
    (single : ¬Overlaid text)
    (clear : Clear symbol back) :
    number (text ++ back) = ⟨symbol, ⟨text, back⟩, []⟩ := by
  have inner : ∀ {digits suffix}, IsHexadecimal digits → suffix = 'H' ∨ suffix = 'X' →
      text = digits ++ [suffix] → ¬['0', 'b'] <+: digits := by
    rintro digits suffix hexadecimal kind rfl starts
    exact single ⟨digits, suffix, hexadecimal, kind, rfl, starts.trans (List.prefix_append _ _)⟩
  cases strict with
  | decimal grouped => exact number_decimal grouped clear
  | suffixed hexadecimal =>
    rw [List.append_assoc]
    exact number_suffixed hexadecimal (inner hexadecimal (.inl rfl) rfl) (.inl ⟨rfl, rfl⟩) back
  | hexadecimal grouped =>
    have read := grouped.digitGroups_append rfl (clear.any_head? isHexadecimal rfl)
      (clear.head?_ne rfl)
    rw [List.cons_append, List.cons_append, number, hexadecimalNumber, read]
    rfl
  | binary grouped =>
    have read := grouped.digitGroups_append rfl (clear.any_head? isBinary rfl) (clear.head?_ne rfl)
    have stops := clear.any_head? isDecimal rfl
    rw [List.cons_append, List.cons_append, number, binaryNumber, read]
    simp only [stops]
    rfl
  | character hexadecimal =>
    rw [List.append_assoc]
    exact number_suffixed hexadecimal (inner hexadecimal (.inr rfl) rfl) (.inr ⟨rfl, rfl⟩) back
  | real grouped decimal scaled =>
    cases clear with
    | ends _ ends =>
      rw [List.append_assoc, List.cons_append, List.append_assoc]
      exact number_real grouped decimal scaled ends

end Completeness

section Soundness

variable {symbol : Symbol} {text : List Char} {c : Char} {rest : List Char}

theorem flaws_number_of_ne_nil
    (flawed : (number text).flaws ≠ []) :
    (number text).flaws = [.malformedNumber] := by
  obtain ⟨symbol, cut, valid, same⟩ := exists_numeral text
  rw [same] at flawed ⊢
  cases valid with
  | true => exact absurd rfl flawed
  | false => rfl

theorem valid_of_flawless
    {cut : Cut}
    {valid : Bool}
    (flawless : (numeral symbol cut valid).flaws = []) :
    valid = true := by
  cases valid with
  | true => rfl
  | false => cases flawless

theorem isScale_of_valid
    (valid : (scaleFactor text).valid = true) :
    IsScale (scaleFactor text).cut.front := by
  revert valid
  fun_cases scaleFactor text with
  | case1 => exact fun _ => .none
  | case2 letter rest scales digits =>
    intro valid
    refine .some scales ?_ ?_ (Cut.forall_mem_front_takeWhile isDecimal _)
    · fun_cases sign rest with
      | case1 => exact .inr (.inl rfl)
      | case2 => exact .inr (.inr rfl)
      | case3 => exact .inl rfl
    · simpa using valid
  | case3 => exact fun _ => .none

/-- The digits of a number that starts with a decimal digit do so too. -/
theorem isHexadecimal_of_valid
    (digit : isDecimal c = true)
    (valid : (digitGroups isHexadecimal (c :: rest)).valid = true) :
    IsHexadecimal (digitGroups isHexadecimal (c :: rest)).cut.front := by
  refine ⟨grouped_of_valid valid, ?_⟩
  rw [digitGroups, if_pos (isHexadecimal_of_isDecimal digit)]
  exact digit

/-- Digits without a flaw and without letters are decimal. -/
theorem decimal_of_valid
    (valid : ((digitGroups isHexadecimal text).valid &&
      !(digitGroups isHexadecimal text).cut.front.any isHexLetter) = true) :
    Grouped isDecimal (digitGroups isHexadecimal text).cut.front := by
  rw [Bool.and_eq_true, Bool.not_eq_true'] at valid
  exact (grouped_of_valid valid.1).decimal valid.2

theorem strict_plainNumber
    (digit : isDecimal c = true)
    (flawless : (plainNumber (c :: rest)).flaws = []) :
    Strict (plainNumber (c :: rest)).symbol (plainNumber (c :: rest)).cut.front := by
  revert flawless
  fun_cases plainNumber (c :: rest) with
  | case1 =>
    intro flawless
    exact .suffixed (isHexadecimal_of_valid digit (valid_of_flawless flawless))
  | case2 =>
    intro flawless
    exact .character (isHexadecimal_of_valid digit (valid_of_flawless flawless))
  | case3 =>
    intro flawless
    exact .decimal (decimal_of_valid (valid_of_flawless flawless))
  | case4 digits plain back behind single decimals =>
    intro flawless
    have valid := valid_of_flawless flawless
    rw [Bool.and_right_comm, Bool.and_eq_true] at valid
    have decimal := Cut.forall_mem_front_takeWhile isDecimal back
    have real := Strict.real (decimal_of_valid valid.1) decimal (isScale_of_valid valid.2)
    simpa +zetaDelta [numeral, fraction, Cut.after] using real
  | case5 =>
    intro flawless
    exact .decimal (decimal_of_valid (valid_of_flawless flawless))

/-- A number without a flaw has a strict text. -/
theorem strict_number
    (digit : isDecimal c = true)
    (flawless : (number (c :: rest)).flaws = []) :
    Strict (number (c :: rest)).symbol (number (c :: rest)).cut.front := by
  have plain := @strict_plainNumber c rest digit
  generalize c :: rest = text at plain flawless ⊢
  revert flawless
  fun_cases number text with
  | case1 rest =>
    intro flawless
    exact .hexadecimal (grouped_of_valid (valid_of_flawless flawless))
  | case2 rest =>
    fun_cases binaryNumber rest with
    | case1 digits complete =>
      intro _
      exact .binary (grouped_of_valid (Bool.and_eq_true_iff.mp complete).1)
    | case2 => rintro ⟨⟩
  | case3 => exact plain

/-- A binary number is made of characters that hexadecimal digits are made of. -/
theorem forall_mem_front_binaryNumber
    (text : List Char) :
    ∀ d ∈ (binaryNumber text).cut.front, isHexadecimal d = true ∨ d = groupMark := by
  have digits : ∀ d ∈ (digitGroups isBinary text).cut.front,
      isHexadecimal d = true ∨ d = groupMark := by
    intro d member
    refine (forall_mem_front_digitGroups isBinary text d member).imp_left fun digit => ?_
    rw [isBinary, Bool.or_eq_true, beq_iff_eq, beq_iff_eq] at digit
    rcases digit with rfl | rfl <;> rfl
  have stray : ∀ d ∈ (Cut.takeWhile isDecimal (digitGroups isBinary text).cut.back).front,
      isHexadecimal d = true ∨ d = groupMark := fun d member =>
    .inl (isHexadecimal_of_isDecimal (Cut.forall_mem_front_takeWhile isDecimal _ d member))
  have marked : ∀ {body : List Char}, (∀ d ∈ body, isHexadecimal d = true ∨ d = groupMark) →
      ∀ d ∈ '0' :: 'b' :: body, isHexadecimal d = true ∨ d = groupMark := fun body =>
    List.forall_mem_cons.mpr ⟨.inl rfl, List.forall_mem_cons.mpr ⟨.inl rfl, body⟩⟩
  fun_cases binaryNumber text with
  | case1 => exact marked digits
  | case2 => exact marked (List.forall_mem_append.mpr ⟨digits, stray⟩)

/-- The characters of numbers other than hexadecimal digits. -/
def numeralMarks : List Char := [groupMark, 'x', 'H', 'X', '.', '+', '-']

theorem forall_mem_front_scaleFactor
    (text : List Char) :
    ∀ d ∈ (scaleFactor text).cut.front, isHexadecimal d = true ∨ d ∈ numeralMarks := by
  fun_cases scaleFactor text with
  | case1 => exact List.forall_mem_nil _
  | case2 letter rest scales digits =>
    have decimals : ∀ d ∈ digits.front, isHexadecimal d = true ∨ d ∈ numeralMarks :=
      fun d member =>
        .inl (isHexadecimal_of_isDecimal (Cut.forall_mem_front_takeWhile isDecimal _ d member))
    have signs : ∀ d ∈ (sign rest).front, isHexadecimal d = true ∨ d ∈ numeralMarks := by
      fun_cases sign rest with
      | case1 => exact List.forall_mem_singleton.mpr (by decide)
      | case2 => exact List.forall_mem_singleton.mpr (by decide)
      | case3 => exact List.forall_mem_nil _
    refine List.forall_mem_append.mpr ⟨List.forall_mem_cons.mpr ⟨?_, signs⟩, decimals⟩
    rcases scales with rfl | rfl <;> decide
  | case3 => exact List.forall_mem_nil _

/-- A number is made of hexadecimal digits and a few other characters. -/
theorem forall_mem_front_number
    (text : List Char) :
    ∀ d ∈ (number text).cut.front, isHexadecimal d = true ∨ d ∈ numeralMarks := by
  have grouped : ∀ {body : List Char}, (∀ d ∈ body, isHexadecimal d = true ∨ d = groupMark) →
      ∀ d ∈ body, isHexadecimal d = true ∨ d ∈ numeralMarks := by
    intro body digits d member
    refine (digits d member).imp_right ?_
    rintro rfl
    exact List.mem_cons_self
  have groups := fun text => grouped (forall_mem_front_digitGroups isHexadecimal text)
  have suffixed : ∀ suffix ∈ numeralMarks, ∀ d ∈
      (digitGroups isHexadecimal text).cut.front ++ [suffix],
      isHexadecimal d = true ∨ d ∈ numeralMarks := by
    intro suffix mark
    exact List.forall_mem_append.mpr ⟨groups text, List.forall_mem_singleton.mpr (.inr mark)⟩
  fun_cases number text with
  | case1 rest =>
    have introduced : ∀ d ∈ ['0', 'x'], isHexadecimal d = true ∨ d ∈ numeralMarks :=
      List.forall_mem_cons.mpr ⟨.inl rfl, List.forall_mem_singleton.mpr (.inr (by decide))⟩
    exact List.forall_mem_append.mpr ⟨introduced, groups rest⟩
  | case2 rest => exact grouped (forall_mem_front_binaryNumber rest)
  | case3 =>
    fun_cases plainNumber text with
    | case1 => exact suffixed 'H' (by decide)
    | case2 => exact suffixed 'X' (by decide)
    | case3 => exact groups text
    | case4 digits plain back behind single decimals =>
      have decimal : ∀ d ∈ (Cut.takeWhile isDecimal back).front,
          isHexadecimal d = true ∨ d ∈ numeralMarks := fun d member =>
        .inl (isHexadecimal_of_isDecimal (Cut.forall_mem_front_takeWhile isDecimal _ d member))
      refine List.forall_mem_append.mpr ⟨suffixed '.' (by decide), ?_⟩
      exact List.forall_mem_append.mpr ⟨decimal, forall_mem_front_scaleFactor _⟩
    | case5 => exact groups text

/-- What is read as a number does not look like a binary integer with a suffix. -/
theorem not_overlaid_number
    (text : List Char) :
    ¬Overlaid (number text).cut.front := by
  rintro ⟨digits, suffix, -, kind, ends, starts⟩
  obtain ⟨rest, whole⟩ := starts.trans (List.prefix_append _ (number text).cut.back)
  rw [← Cut.whole, whole_number] at whole
  subst whole
  have digit := forall_mem_front_binaryNumber rest suffix
    (show suffix ∈ (number (['0', 'b'] ++ rest)).cut.front by rw [ends]; simp)
  rcases kind with rfl | rfl
  · exact absurd digit (by decide)
  · exact absurd digit (by decide)

/-- A number is flawless exactly if its text is strict. -/
theorem flaws_number_eq_nil_iff
    (digit : isDecimal c = true) :
    (number (c :: rest)).flaws = [] ↔
      Strict (number (c :: rest)).symbol (number (c :: rest)).cut.front := by
  refine ⟨strict_number digit, fun strict => ?_⟩
  -- the same number is read of its own text
  have again := number_append rest digit (rfl : endsToken [] = true)
  rw [strict.number_append (not_overlaid_number _) (.ends _ rfl)] at again
  exact (congrArg Reading.flaws again).symm

/-- An integer has no point. -/
theorem point_notMem_number
    (text : List Char)
    (integer : (number text).symbol = .integer) :
    '.' ∉ (number text).cut.front := by
  have free : ∀ {digits : List Char}, (∀ d ∈ digits, isHexadecimal d = true ∨ d = groupMark) →
      '.' ∉ digits := fun digits member => absurd (digits '.' member) (by decide)
  have groups := fun text => free (forall_mem_front_digitGroups isHexadecimal text)
  revert integer
  fun_cases number text with
  | case1 rest => exact fun _ => by simpa [hexadecimalNumber, numeral, Cut.after] using groups rest
  | case2 rest => exact fun _ => free (forall_mem_front_binaryNumber rest)
  | case3 =>
    fun_cases plainNumber text with
    | case1 => exact fun _ => by simpa [numeral] using groups text
    | case2 => rintro ⟨⟩
    | case3 => exact fun _ => groups text
    | case4 => rintro ⟨⟩
    | case5 => exact fun _ => groups text

/-- A real number has a point, and there is none right behind it. -/
theorem exists_point_number
    (text : List Char)
    (real : (number text).symbol = .real) :
    ∃ digits decimals, (number text).cut.front = digits ++ '.' :: decimals ∧ '.' ∉ digits ∧
      (decimals ++ (number text).cut.back).head? ≠ some '.' := by
  revert real
  fun_cases number text with
  | case1 rest => rintro ⟨⟩
  | case2 rest => fun_cases binaryNumber rest <;> rintro ⟨⟩
  | case3 =>
    fun_cases plainNumber text with
    | case1 => rintro ⟨⟩
    | case2 => rintro ⟨⟩
    | case3 => rintro ⟨⟩
    | case4 digits plain back behind single decimals =>
      intro _
      have whole := whole_fraction back
      refine ⟨digits.cut.front, decimals.cut.front, by simp [numeral, Cut.after], ?_, ?_⟩
      · intro member
        exact absurd (forall_mem_front_digitGroups isHexadecimal text '.' member) (by decide)
      · rw [Cut.whole] at whole
        simpa +zetaDelta [numeral, Cut.after, whole] using single
    | case5 => rintro ⟨⟩

end Soundness

end Scan

open Scan

namespace Scanner

variable {text : List Char} {scanner : Scanner}

theorem offset_le_of_issue
    (short : text.length < wordCount)
    (stands : scanner.Stands text) :
    ∀ issue ∈ scanner.run.flatMap (·.issues), scanner.offset ≤ issue.token.start := by
  intro issue member
  obtain ⟨step, among, noticed⟩ := List.mem_flatMap.mp member
  have ahead := (sequence_run short stands).ahead _ (List.mem_map_of_mem among)
  obtain ⟨place, -, rfl⟩ := exists_of_mem_run stands among
  rwa [start_of_issue noticed]

/-- No issue is located at the place of a token but the one that is noticed at it. -/
theorem filter_issues
    (short : text.length < wordCount)
    (stands : scanner.Stands text)
    {step : Scanned}
    (member : step ∈ scanner.run)
    (inner : step.lexeme.symbol ≠ .endOfFile)
    (filled : step.lexeme.token.start < step.lexeme.token.stop) :
    (scanner.run.flatMap (·.issues)).filter (·.token.start == step.lexeme.token.start) =
      step.issues := by
  fun_induction run scanner with
  | case1 scanner next ends =>
    rw [List.mem_singleton.mp member] at inner
    exact absurd ends inner
  | case2 scanner next continues ih =>
    have steps := steps_next stands
    have resumes := steps.resumes short
    have later := offset_le_of_issue short steps.stands
    rw [List.flatMap_cons, List.filter_append]
    rcases List.mem_cons.mp member with rfl | among
    · -- what is noticed later is located behind the token
      have others : (next.scanner.run.flatMap (·.issues)).filter
          (·.token.start == next.lexeme.token.start) = [] := by
        refine List.filter_eq_nil_iff.mpr fun issue among same => ?_
        have behind : next.lexeme.token.stop ≤ issue.token.start := resumes ▸ later issue among
        rw [beq_iff_eq] at same
        omega
      rw [others, List.append_nil]
      refine List.filter_eq_self.mpr fun issue noticed => ?_
      rw [beq_iff_eq]
      exact start_of_issue noticed
    · have first : next.issues.filter (·.token.start == step.lexeme.token.start) = [] := by
        refine List.filter_eq_nil_iff.mpr fun issue noticed same => ?_
        obtain ⟨-, begins, whole⟩ := issue_of_token short stands continues noticed
        have ahead := (sequence_run short steps.stands).ahead _ (List.mem_map_of_mem among)
        rw [beq_iff_eq] at same
        omega
      rw [first, List.nil_append]
      exact ih steps.stands among

end Scanner

/-- A token that starts with a digit is a number, and there is an issue about it, which covers it,
exactly if its text is not strict.  No point of a range belongs to it. -/
structure TokenStream.Checks (stream : TokenStream) (token : Token) : Prop where
  kind : token.symbol = .integer ∨ token.symbol = .real ∨ token.symbol = .character
  flawless : Strict token.symbol (stream.sourceText token) →
    stream.issues.filter (·.token.start == token.start) = []
  malformed : ¬Strict token.symbol (stream.sourceText token) →
    stream.issues.filter (·.token.start == token.start) =
      [⟨.malformedNumber, ⟨.integer, token.start, token.stop⟩⟩]
  integer : token.symbol = .integer → '.' ∉ stream.sourceText token
  real : token.symbol = .real → ∃ digits decimals,
    stream.sourceText token = digits ++ '.' :: decimals ∧ '.' ∉ digits ∧
      (decimals ++ stream.text.drop token.stop).head? ≠ some '.'

namespace TokenStream

/-- A number that is read somewhere in a short text is checked, if the issues at its place are those
that are noticed at it. -/
theorem checks_number
    {stream : TokenStream}
    {before rest : List Char}
    {c : Char}
    (short : stream.text.length < wordCount)
    (whole : stream.text = before ++ c :: rest)
    (digit : isDecimal c = true)
    (alone :
      let step := Scanner.tokenAt before.length (number (c :: rest))
      step.lexeme.symbol ≠ .endOfFile → step.lexeme.token.start < step.lexeme.token.stop →
        stream.issues.filter (·.token.start == step.lexeme.token.start) = step.issues) :
    stream.Checks (Scanner.tokenAt before.length (number (c :: rest))).lexeme.token := by
  rw [← whole_number (c :: rest)] at whole
  have token := token_lexemeAt short whole
  have covered := sourceText_lexemeAt short whole
  have behind := drop_stop_lexemeAt short whole
  have filled := List.length_pos_iff.mpr (front_number_ne_nil rest digit)
  have kind := symbol_number (c :: rest)
  have strict : (number (c :: rest)).flaws = [] ↔ _ := flaws_number_eq_nil_iff digit
  have inner : (number (c :: rest)).symbol ≠ .endOfFile := by
    intro ends
    simp [ends] at kind
  have issues := alone inner (by
    simp only [Scanner.tokenAt, token, List.length_append]
    omega)
  refine ⟨kind, ?_, ?_, ?_, ?_⟩
  · intro wellFormed
    rw [Scanner.tokenAt, covered] at wellFormed
    refine issues.trans ?_
    rw [Scanner.tokenAt, strict.mpr wellFormed]
    rfl
  · intro ill
    rw [Scanner.tokenAt, covered] at ill
    refine issues.trans ?_
    rw [Scanner.tokenAt, flaws_number_of_ne_nil (mt strict.mp ill)]
    rfl
  · rw [Scanner.tokenAt, covered]
    exact point_notMem_number (c :: rest)
  · rw [Scanner.tokenAt, covered, behind]
    exact exists_point_number (c :: rest)

theorem checks
    {name : String}
    {text : List Char}
    {token : Token}
    (short : text.length < wordCount)
    (member : token ∈ (ofText name text).tokens)
    (code : token.symbol ≠ .assembler)
    (digit : ((ofText name text).sourceText token).head?.any isDecimal = true) :
    (ofText name text).Checks token := by
  rw [tokens_ofText] at member
  obtain ⟨step, among, rfl⟩ := List.mem_map.mp member
  have alone := Scanner.filter_issues short (Scanner.stands_ofText text) among
  obtain ⟨place, stands, rfl⟩ := Scanner.exists_of_mem_run (Scanner.stands_ofText _) among
  obtain ⟨before, whole, offset⟩ := stands
  have cases := Scanner.advance_next place
  generalize place.next = step at cases alone code digit ⊢
  cases cases with
  | @token gap others reading place skipped bare found =>
    obtain rfl : place = before.length := offset
    rw [← List.append_assoc] at whole
    rw [← List.length_append] at alone digit ⊢
    have covered : (ofText name text).sourceText (Scanner.lexemeAt reading.symbol
        (before ++ gap).length reading.cut.front).token = reading.cut.front :=
      sourceText_lexemeAt short (whole_read? found ▸ whole)
    rw [Scanner.tokenAt, covered] at digit
    cases others with
    | nil => cases found
    | cons c rest =>
      rw [head?_front_read? found] at digit
      obtain rfl : number (c :: rest) = reading :=
        Option.some.inj ((Recognized.number rest digit).read?_eq.symm.trans found)
      exact checks_number short whole digit alone
  | assembler => exact absurd rfl code
  | stray => simp [sourceText, Scanner.endAt, Token.endAt] at digit
  | unclosed => simp [sourceText, Scanner.endAt, Token.endAt] at digit

end TokenStream

/-- A strict text behind a gap is scanned as one token of its kind, which covers exactly this text,
and without an issue. -/
theorem Scanner.next_of_strict
    {gap text back : List Char}
    {symbol : Symbol}
    (offset : Nat)
    (skipped : Gap gap)
    (short : offset + gap.length + text.length < wordCount)
    (strict : Strict symbol text)
    (single : ¬Overlaid text)
    (clear : Clear symbol back) :
    next ⟨gap ++ (text ++ back), offset, false⟩ =
      ⟨⟨⟨symbol, offset + gap.length, offset + gap.length + text.length⟩, String.ofList text⟩, [],
        ⟨back, offset + gap.length + text.length, false⟩⟩ := by
  have kind : symbol.hasText = true ∧ (symbol == .word .CODE) = false := by
    cases strict <;> exact ⟨rfl, rfl⟩
  have read := strict.number_append single clear
  obtain ⟨c, rest, rfl, digit⟩ := strict.exists_cons
  have found := (Recognized.number (rest ++ back) digit).read?_eq
  have step := Advance.token offset skipped (startsGap_of_isDecimal digit (rest ++ back)) found
  rw [List.cons_append] at read ⊢
  have token := token_lexemeAt symbol short
  rw [step.next_eq, read, tokenAt, lexemeAt, kind.1, if_pos rfl, kind.2]
  rw [lexemeAt] at token
  exact congrArg (fun token => (⟨⟨token, _⟩, [], _⟩ : Scanned)) token

end Oberon
