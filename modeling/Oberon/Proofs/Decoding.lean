import Oberon.Parser.Parse

/-!
# Decoding

What the decoder makes of bytes, said without its machine.  A text stands for bytes if they fall
into the bytes of its characters, with U+FFFD for every maximal part of ill-formed input.  Every
sequence of bytes stands for one text only, and this is the text that decoding yields.

The machine is in a state exactly after the bytes that some character begins with, so it is
described by `pending?`, which runs it over them.  Which bytes make up a character, and what is
pending after each of them, is arithmetic.

In particular decoding undoes encoding.  A source is scanned and parsed by its text alone, so a file
and the text that its bytes stand for cannot be told apart.
-/

namespace Oberon.Text.Utf8

/-- What is pending after one more byte of a character that is not its last. -/
def Pending.advance? (pending : Pending) (byte : UInt8) : Option Pending :=
  if pending.low ≤ byte.toNat ∧ byte.toNat ≤ pending.high then
    match pending.more with
    | 0 => none
    | more + 1 => some ⟨pending.value * 64 + (byte.toNat - 0x80), 0x80, 0xBF, more⟩
  else none

/-- What is pending after the first bytes of a longer character. -/
def pending? : List UInt8 → Option Pending
  | [] => none
  | byte :: rest => (lead? byte.toNat).bind fun pending => rest.foldlM Pending.advance? pending

theorem toUInt8_eq_iff
    {n : Nat}
    {byte : UInt8}
    (small : n < 256) :
    n.toUInt8 = byte ↔ n = byte.toNat := by
  rw [← UInt8.toNat_inj, Nat.toUInt8, UInt8.toNat_ofNat', Nat.mod_eq_of_lt small]

theorem toNat_ofNat
    {n : Nat}
    (valid : n.isValidChar) :
    (Char.ofNat n).toNat = n := by
  rw [Char.ofNat, dif_pos valid]
  rfl

theorem advance?_eq_some_iff
    {pending next : Pending}
    {byte : UInt8} :
    pending.advance? byte = some next ↔
      (pending.low ≤ byte.toNat ∧ byte.toNat ≤ pending.high) ∧
        pending.more = next.more + 1 ∧ next.value = pending.value * 64 + (byte.toNat - 0x80) ∧
          next.low = 0x80 ∧ next.high = 0xBF := by
  obtain ⟨value, low, high, more⟩ := pending
  obtain ⟨value', low', high', more'⟩ := next
  cases more with
  | zero =>
    simp only [Pending.advance?, ite_self, reduceCtorEq, false_iff]
    exact fun h => h.2.1
  | succ more =>
    simp only [Pending.advance?, Option.ite_none_right_eq_some, Option.some.injEq, Pending.mk.injEq,
      Nat.add_right_cancel_iff]
    constructor
    · rintro ⟨inRange, value, low, high, more⟩
      exact ⟨inRange, more, value.symm, low.symm, high.symm⟩
    · rintro ⟨inRange, more, value, low, high⟩
      exact ⟨inRange, value.symm, low.symm, high.symm, more⟩

theorem lead?_eq
    (byte : Nat) :
    lead? byte =
      if byte < 0xC2 then none
      else if byte < 0xE0 then some ⟨byte - 0xC0, 0x80, 0xBF, 0⟩
      else if byte < 0xF0 then
        some ⟨byte - 0xE0, if byte = 0xE0 then 0xA0 else 0x80, if byte = 0xED then 0x9F else 0xBF,
          1⟩
      else if byte < 0xF5 then
        some ⟨byte - 0xF0, if byte = 0xF0 then 0x90 else 0x80, if byte = 0xF4 then 0x8F else 0xBF,
          2⟩
      else none := by
  by_cases exception : byte = 0xE0 ∨ byte = 0xED ∨ byte = 0xF0 ∨ byte = 0xF4
  · obtain rfl | rfl | rfl | rfl := exception
    all_goals rfl
  · simp only [not_or] at exception
    have below : byte < 0xF5 ↔ byte < 0xF4 := by omega
    simp only [lead?, exception, below, if_false]

/-- The first byte tells how many bytes follow, and which ones the second can be. -/
theorem lead?_eq_some_iff
    {byte : Nat}
    {pending : Pending} :
    lead? byte = some pending ↔
      (0xC2 ≤ byte ∧ byte < 0xE0 ∧ pending = ⟨byte - 0xC0, 0x80, 0xBF, 0⟩) ∨
      (0xE0 ≤ byte ∧ byte < 0xF0 ∧ pending =
        ⟨byte - 0xE0, if byte = 0xE0 then 0xA0 else 0x80, if byte = 0xED then 0x9F else 0xBF, 1⟩) ∨
      (0xF0 ≤ byte ∧ byte < 0xF5 ∧ pending =
        ⟨byte - 0xF0, if byte = 0xF0 then 0x90 else 0x80, if byte = 0xF4 then 0x8F else 0xBF,
          2⟩) := by
  rw [lead?_eq, @eq_comm _ _ (some pending)]
  split
  · exact iff_of_false nofun (by omega)
  split
  · have inRange : 0xC2 ≤ byte ∧ byte < 0xE0 ∧ ¬0xE0 ≤ byte ∧ ¬0xF0 ≤ byte := by omega
    simp only [inRange, Option.some.injEq, true_and, false_and, or_false]
  split
  · have inRange : ¬byte < 0xE0 ∧ 0xE0 ≤ byte ∧ byte < 0xF0 ∧ ¬0xF0 ≤ byte := by omega
    simp only [inRange, Option.some.injEq, true_and, false_and, and_false, or_false, false_or]
  split
  · have inRange : ¬byte < 0xE0 ∧ ¬byte < 0xF0 ∧ 0xF0 ≤ byte ∧ byte < 0xF5 := by omega
    simp only [inRange, Option.some.injEq, true_and, false_and, and_false, false_or]
  · exact iff_of_false nofun (by omega)

section Bytes

variable {c : Char} {a b d e : UInt8}

theorem encodeChar_eq_one_iff :
    encodeChar c = [a] ↔ a.toNat < 0x80 ∧ c.toNat = a.toNat := by
  rw [encodeChar]
  split
  · rw [List.singleton_inj, toUInt8_eq_iff (by omega)]
    omega
  · refine iff_of_false ?_ (by omega)
    split
    · exact nofun
    · split <;> exact nofun

/-- The bytes of a character as digits of its number. -/
theorem encodeChar_eq_two_iff_digits :
    encodeChar c = [a, b] ↔ (0x80 ≤ c.toNat ∧ c.toNat < 0x800) ∧
      a.toNat = 0xC0 + c.toNat / 64 ∧ b.toNat = 0x80 + c.toNat % 64 := by
  rw [encodeChar]
  split
  · exact iff_of_false nofun (by omega)
  split
  · rw [List.cons.injEq, List.singleton_inj, toUInt8_eq_iff (by omega), toUInt8_eq_iff (by omega)]
    omega
  · refine iff_of_false ?_ (by omega)
    split <;> exact nofun

theorem encodeChar_eq_three_iff_digits :
    encodeChar c = [a, b, d] ↔ (0x800 ≤ c.toNat ∧ c.toNat < 0x10000) ∧
      a.toNat = 0xE0 + c.toNat / 4096 ∧ b.toNat = 0x80 + c.toNat / 64 % 64 ∧
        d.toNat = 0x80 + c.toNat % 64 := by
  rw [encodeChar]
  split
  · exact iff_of_false nofun (by omega)
  split
  · exact iff_of_false nofun (by omega)
  split
  · rw [List.cons.injEq, List.cons.injEq, List.singleton_inj, toUInt8_eq_iff (by omega),
      toUInt8_eq_iff (by omega), toUInt8_eq_iff (by omega)]
    omega
  · exact iff_of_false nofun (by omega)

theorem encodeChar_eq_four_iff_digits :
    encodeChar c = [a, b, d, e] ↔ 0x10000 ≤ c.toNat ∧
      a.toNat = 0xF0 + c.toNat / 262144 ∧ b.toNat = 0x80 + c.toNat / 4096 % 64 ∧
        d.toNat = 0x80 + c.toNat / 64 % 64 ∧ e.toNat = 0x80 + c.toNat % 64 := by
  have valid : c.toNat < 0xD800 ∨ 0xDFFF < c.toNat ∧ c.toNat < 0x110000 := c.valid
  rw [encodeChar]
  split
  · exact iff_of_false nofun (by omega)
  split
  · exact iff_of_false nofun (by omega)
  split
  · exact iff_of_false nofun (by omega)
  · rw [List.cons.injEq, List.cons.injEq, List.cons.injEq, List.singleton_inj,
      toUInt8_eq_iff (by omega), toUInt8_eq_iff (by omega), toUInt8_eq_iff (by omega),
      toUInt8_eq_iff (by omega)]
    omega

theorem encodeChar_eq_two_iff :
    encodeChar c = [a, b] ↔
      (0xC2 ≤ a.toNat ∧ a.toNat < 0xE0) ∧ (0x80 ≤ b.toNat ∧ b.toNat ≤ 0xBF) ∧
        c.toNat = (a.toNat - 0xC0) * 64 + (b.toNat - 0x80) := by
  rw [encodeChar_eq_two_iff_digits]
  omega

/-- The second byte keeps out overlong forms and surrogates. -/
theorem encodeChar_eq_three_iff :
    encodeChar c = [a, b, d] ↔
      (0xE0 ≤ a.toNat ∧ a.toNat < 0xF0) ∧ (0x80 ≤ b.toNat ∧ b.toNat ≤ 0xBF) ∧
        (a.toNat = 0xE0 → 0xA0 ≤ b.toNat) ∧ (a.toNat = 0xED → b.toNat ≤ 0x9F) ∧
        (0x80 ≤ d.toNat ∧ d.toNat ≤ 0xBF) ∧
        c.toNat = ((a.toNat - 0xE0) * 64 + (b.toNat - 0x80)) * 64 + (d.toNat - 0x80) := by
  have valid : c.toNat < 0xD800 ∨ 0xDFFF < c.toNat ∧ c.toNat < 0x110000 := c.valid
  rw [encodeChar_eq_three_iff_digits]
  constructor
  · rintro ⟨size, first, second, third⟩
    omega
  · rintro ⟨first, second, overlong, surrogate, third, value⟩
    omega

/-- The second byte keeps out overlong forms and numbers past the last character. -/
theorem encodeChar_eq_four_iff :
    encodeChar c = [a, b, d, e] ↔
      (0xF0 ≤ a.toNat ∧ a.toNat < 0xF5) ∧ (0x80 ≤ b.toNat ∧ b.toNat ≤ 0xBF) ∧
        (a.toNat = 0xF0 → 0x90 ≤ b.toNat) ∧ (a.toNat = 0xF4 → b.toNat ≤ 0x8F) ∧
        (0x80 ≤ d.toNat ∧ d.toNat ≤ 0xBF) ∧ (0x80 ≤ e.toNat ∧ e.toNat ≤ 0xBF) ∧
        c.toNat = (((a.toNat - 0xF0) * 64 + (b.toNat - 0x80)) * 64 + (d.toNat - 0x80)) * 64 +
          (e.toNat - 0x80) := by
  have valid : c.toNat < 0xD800 ∨ 0xDFFF < c.toNat ∧ c.toNat < 0x110000 := c.valid
  rw [encodeChar_eq_four_iff_digits]
  constructor
  · rintro ⟨size, first, second, third, fourth⟩
    omega
  · rintro ⟨first, second, overlong, surrogate, third, value⟩
    omega

theorem encodeChar_cases :
    (∃ a, encodeChar c = [a]) ∨ (∃ a b, encodeChar c = [a, b]) ∨
      (∃ a b d, encodeChar c = [a, b, d]) ∨ ∃ a b d e, encodeChar c = [a, b, d, e] := by
  simp only [encodeChar]
  repeat' split
  all_goals simp

end Bytes

/-- The last byte of a character that is pending. -/
structure Pending.Ends (pending : Pending) (byte : UInt8) (c : Char) : Prop where
  last : pending.more = 0
  inRange : pending.low ≤ byte.toNat ∧ byte.toNat ≤ pending.high
  value : c.toNat = pending.value * 64 + (byte.toNat - 0x80)

section Longer

variable {c : Char} {a b d byte : UInt8} {pending : Pending}

theorem pending?_one_iff :
    pending? [a] = some pending ↔ lead? a.toNat = some pending := by
  simp [pending?]

theorem pending?_append
    {read back : List UInt8}
    (begun : read ≠ []) :
    pending? (read ++ back) =
      (pending? read).bind fun pending => back.foldlM Pending.advance? pending := by
  cases read with
  | nil => exact absurd rfl begun
  | cons a rest =>
    simp only [List.cons_append, pending?, List.foldlM_append, Option.bind_assoc]
    rfl

theorem pending?_snoc
    {read : List UInt8}
    (begun : read ≠ []) :
    pending? (read ++ [byte]) = (pending? read).bind fun pending => pending.advance? byte := by
  simp [pending?_append begun]

/-- A character of two bytes is pending after the first. -/
theorem ends_one_iff :
    (∃ pending, pending? [a] = some pending ∧ pending.Ends byte c) ↔ encodeChar c = [a, byte] := by
  rw [encodeChar_eq_two_iff]
  constructor
  · rintro ⟨pending, opened, last, inRange, value⟩
    rw [pending?_one_iff, lead?_eq_some_iff] at opened
    obtain ⟨_, _, rfl⟩ | ⟨_, _, rfl⟩ | ⟨_, _, rfl⟩ := opened
    · exact ⟨⟨‹_›, ‹_›⟩, inRange, value⟩
    all_goals cases last
  · rintro ⟨⟨low, high⟩, inRange, value⟩
    exact ⟨_, pending?_one_iff.mpr (lead?_eq_some_iff.mpr (.inl ⟨low, high, rfl⟩)), rfl, inRange,
      value⟩

theorem pending?_two_iff :
    pending? [a, b] = some pending ↔
      (0x80 ≤ b.toNat ∧ b.toNat ≤ 0xBF) ∧ pending.low = 0x80 ∧ pending.high = 0xBF ∧
        ((0xE0 ≤ a.toNat ∧ a.toNat < 0xF0) ∧
            (a.toNat = 0xE0 → 0xA0 ≤ b.toNat) ∧ (a.toNat = 0xED → b.toNat ≤ 0x9F) ∧
            pending.value = (a.toNat - 0xE0) * 64 + (b.toNat - 0x80) ∧ pending.more = 0 ∨
          (0xF0 ≤ a.toNat ∧ a.toNat < 0xF5) ∧
            (a.toNat = 0xF0 → 0x90 ≤ b.toNat) ∧ (a.toNat = 0xF4 → b.toNat ≤ 0x8F) ∧
            pending.value = (a.toNat - 0xF0) * 64 + (b.toNat - 0x80) ∧ pending.more = 1) := by
  rw [show [a, b] = [a] ++ [b] from rfl, pending?_snoc (List.cons_ne_nil _ _),
    Option.bind_eq_some_iff]
  simp only [pending?_one_iff, advance?_eq_some_iff]
  constructor
  · rintro ⟨opened, lead, inRange, more, value, low, high⟩
    rw [lead?_eq_some_iff] at lead
    obtain ⟨_, _, rfl⟩ | ⟨_, _, rfl⟩ | ⟨_, _, rfl⟩ := lead
    · cases more
    all_goals
      dsimp only at inRange more value
      split at inRange <;> split at inRange <;> omega
  · rintro ⟨tail, low, high, three | four⟩
    · refine ⟨_, lead?_eq_some_iff.mpr (.inr (.inl ⟨three.1.1, three.1.2, rfl⟩)), ?_⟩
      dsimp only
      refine ⟨⟨?_, ?_⟩, ?_⟩
      · split <;> omega
      · split <;> omega
      · omega
    · refine ⟨_, lead?_eq_some_iff.mpr (.inr (.inr ⟨four.1.1, four.1.2, rfl⟩)), ?_⟩
      dsimp only
      refine ⟨⟨?_, ?_⟩, ?_⟩
      · split <;> omega
      · split <;> omega
      · omega

/-- A character of three bytes is pending after the second. -/
theorem ends_two_iff :
    (∃ pending, pending? [a, b] = some pending ∧ pending.Ends byte c) ↔
      encodeChar c = [a, b, byte] := by
  rw [encodeChar_eq_three_iff]
  simp only [pending?_two_iff]
  constructor
  · rintro ⟨⟨value, low, high, more⟩, opened, last, inRange, number⟩
    dsimp only at *
    omega
  · intro bytes
    refine ⟨⟨(a.toNat - 0xE0) * 64 + (b.toNat - 0x80), 0x80, 0xBF, 0⟩, ?_, rfl, ?_, ?_⟩
    all_goals
      dsimp only
      omega

theorem pending?_three_iff :
    pending? [a, b, d] = some pending ↔
      (0x80 ≤ b.toNat ∧ b.toNat ≤ 0xBF) ∧ (0x80 ≤ d.toNat ∧ d.toNat ≤ 0xBF) ∧
        (0xF0 ≤ a.toNat ∧ a.toNat < 0xF5) ∧
        (a.toNat = 0xF0 → 0x90 ≤ b.toNat) ∧ (a.toNat = 0xF4 → b.toNat ≤ 0x8F) ∧
        pending =
          ⟨((a.toNat - 0xF0) * 64 + (b.toNat - 0x80)) * 64 + (d.toNat - 0x80), 0x80, 0xBF, 0⟩ := by
  obtain ⟨value, low, high, more⟩ := pending
  rw [show [a, b, d] = [a, b] ++ [d] from rfl, pending?_snoc (List.cons_ne_nil _ _),
    Option.bind_eq_some_iff]
  simp only [pending?_two_iff, advance?_eq_some_iff, Pending.mk.injEq]
  constructor
  · rintro ⟨⟨value', low', high', more'⟩, opened⟩
    dsimp only at opened
    omega
  · intro bytes
    refine ⟨⟨(a.toNat - 0xF0) * 64 + (b.toNat - 0x80), 0x80, 0xBF, 1⟩, ?_⟩
    dsimp only
    omega

/-- A character of four bytes is pending after the third. -/
theorem ends_three_iff :
    (∃ pending, pending? [a, b, d] = some pending ∧ pending.Ends byte c) ↔
      encodeChar c = [a, b, d, byte] := by
  rw [encodeChar_eq_four_iff]
  simp only [pending?_three_iff]
  constructor
  · rintro ⟨⟨value, low, high, more⟩, opened, last, inRange, number⟩
    simp only [Pending.mk.injEq] at *
    omega
  · intro bytes
    refine ⟨_, ⟨bytes.2.1, bytes.2.2.2.2.1, bytes.1, bytes.2.2.1, bytes.2.2.2.1, rfl⟩, rfl, ?_, ?_⟩
    all_goals
      dsimp only
      omega

end Longer

section Reading

variable {c : Char} {byte : UInt8} {read back : List UInt8} {pending : Pending}

theorem pending?_four
    {a b d e : UInt8} :
    pending? (a :: b :: d :: e :: back) = none := by
  rw [show a :: b :: d :: e :: back = [a, b, d] ++ (e :: back) from rfl,
    pending?_append (List.cons_ne_nil _ _), Option.bind_eq_none_iff]
  intro pending opened
  obtain ⟨-, -, -, -, -, rfl⟩ := pending?_three_iff.mp opened
  simp [Pending.advance?]

/-- The bytes of a character past ASCII are those that leave it pending, and the last one. -/
theorem ends_iff
    (begun : read ≠ []) :
    (∃ pending, pending? read = some pending ∧ pending.Ends byte c) ↔
      encodeChar c = read ++ [byte] := by
  match read, begun with
  | [a], _ => exact ends_one_iff
  | [a, b], _ => exact ends_two_iff
  | [a, b, d], _ => exact ends_three_iff
  | a :: b :: d :: e :: rest, _ =>
    rw [pending?_four]
    obtain ⟨_, bytes⟩ | ⟨_, _, bytes⟩ | ⟨_, _, _, bytes⟩ | ⟨_, _, _, _, bytes⟩ :=
      encodeChar_cases (c := c)
    all_goals simp [bytes]

theorem low_le_high
    (opened : pending? read = some pending) :
    pending.low ≤ pending.high ∧ pending.high < 256 := by
  match read with
  | [a] =>
    obtain ⟨_, _, rfl⟩ | ⟨_, _, rfl⟩ | ⟨_, _, rfl⟩ :=
      lead?_eq_some_iff.mp (pending?_one_iff.mp opened)
    · exact ⟨Nat.le_of_ble_eq_true rfl, Nat.le_of_ble_eq_true rfl⟩
    all_goals
      dsimp only
      split <;> split <;> omega
  | [a, b] =>
    have two := pending?_two_iff.mp opened
    omega
  | [a, b, d] =>
    obtain ⟨-, -, -, -, -, rfl⟩ := pending?_three_iff.mp opened
    exact ⟨Nat.le_of_ble_eq_true rfl, Nat.le_of_ble_eq_true rfl⟩
  | a :: b :: d :: e :: rest => simp [pending?_four] at opened

/-- Every byte in range ends a character if one byte is missing. -/
theorem exists_ends
    (opened : pending? read = some pending)
    (last : pending.more = 0)
    (inRange : pending.low ≤ byte.toNat ∧ byte.toNat ≤ pending.high) :
    ∃ c : Char, pending.Ends byte c := by
  have valid : (pending.value * 64 + (byte.toNat - 0x80)).isValidChar := by
    match read with
    | [a] =>
      obtain ⟨_, _, rfl⟩ | ⟨_, _, rfl⟩ | ⟨_, _, rfl⟩ :=
        lead?_eq_some_iff.mp (pending?_one_iff.mp opened)
      · left
        dsimp only at *
        omega
      all_goals cases last
    | [a, b] =>
      have two := pending?_two_iff.mp opened
      rw [Nat.isValidChar]
      omega
    | [a, b, d] =>
      obtain ⟨_, _, _, _, _, rfl⟩ := pending?_three_iff.mp opened
      rw [Nat.isValidChar]
      dsimp only at *
      omega
    | a :: b :: d :: e :: rest => simp [pending?_four] at opened
  exact ⟨Char.ofNat _, last, inRange, toNat_ofNat valid⟩

end Reading

section Beginnings

variable {c : Char} {byte : UInt8} {read back rest : List UInt8} {pending next : Pending}

theorem Pending.exists_inRange
    (opened : pending? read = some pending) :
    ∃ byte : UInt8, pending.low ≤ byte.toNat ∧ byte.toNat ≤ pending.high := by
  obtain ⟨ordered, small⟩ := low_le_high opened
  refine ⟨pending.low.toUInt8, ?_⟩
  rw [← (toUInt8_eq_iff (by omega)).mp rfl]
  omega

/-- Whatever is pending can be ended: the bytes read begin a character. -/
theorem exists_begins
    (opened : pending? read = some pending) :
    ∃ c, read <+: encodeChar c := by
  have begun : read ≠ [] := by
    rintro rfl
    cases opened
  obtain ⟨byte, inRange⟩ := Pending.exists_inRange opened
  -- One more byte leaves less missing.
  induction missing : pending.more generalizing read pending byte with
  | zero =>
    obtain ⟨c, ends⟩ := exists_ends opened missing inRange
    exact ⟨c, [byte], ((ends_iff begun).mp ⟨pending, opened, ends⟩).symm⟩
  | succ more ih =>
    have longer : pending? (read ++ [byte]) =
        some ⟨pending.value * 64 + (byte.toNat - 0x80), 0x80, 0xBF, more⟩ := by
      rw [pending?_snoc begun, opened]
      exact advance?_eq_some_iff.mpr ⟨inRange, missing, rfl, rfl, rfl⟩
    obtain ⟨byte', inRange'⟩ := Pending.exists_inRange longer
    obtain ⟨c, begins⟩ := ih longer (by simp) byte' inRange' rfl
    exact ⟨c, (List.prefix_append read [byte]).trans begins⟩

/-- A byte that continues the beginning of a character is in the range that is pending. -/
theorem inRange_of_begins
    (begun : read ≠ [])
    (begins : read ++ [byte] <+: encodeChar c) :
    ∃ pending, pending? read = some pending ∧
      pending.low ≤ byte.toNat ∧ byte.toNat ≤ pending.high := by
  obtain ⟨back, bytes⟩ := begins
  obtain rfl | ⟨middle, last, rfl⟩ := List.eq_nil_or_concat back
  · rw [List.append_nil] at bytes
    obtain ⟨pending, opened, ends⟩ := (ends_iff begun).mpr bytes.symm
    exact ⟨pending, opened, ends.inRange⟩
  · rw [List.concat_eq_append, ← List.append_assoc] at bytes
    obtain ⟨_, opened, -⟩ := (ends_iff (by simp)).mpr bytes.symm
    rw [List.append_assoc, pending?_append begun, Option.bind_eq_some_iff] at opened
    obtain ⟨pending, opened, continued⟩ := opened
    rw [List.singleton_append, List.foldlM_cons, Option.bind_eq_bind, Option.bind_eq_some_iff]
      at continued
    obtain ⟨_, advanced, -⟩ := continued
    exact ⟨pending, opened, (advance?_eq_some_iff.mp advanced).1⟩

theorem step_of_lt
    (short : byte.toNat < 0x80) :
    step none byte.toNat = ([Char.ofNat byte.toNat], none) :=
  if_pos short

theorem step_of_lead?
    (lead : lead? byte.toNat = some pending) :
    step none byte.toNat = ([], some pending) := by
  have long : ¬byte.toNat < 0x80 := by
    have := lead?_eq_some_iff.mp lead
    omega
  rw [step, first, if_neg long, lead]

theorem step_of_stray
    (long : ¬byte.toNat < 0x80)
    (stray : lead? byte.toNat = none) :
    step none byte.toNat = ([replacement], none) := by
  rw [step, first, if_neg long, stray]

theorem step_of_advance?
    (advanced : pending.advance? byte = some next) :
    step (some pending) byte.toNat = ([], some next) := by
  obtain ⟨inRange, more, value, low, high⟩ := advance?_eq_some_iff.mp advanced
  rw [step, if_pos inRange]
  simp only [more, ← value]
  rw [← low, ← high]

theorem step_of_ends
    (ends : pending.Ends byte c) :
    step (some pending) byte.toNat = ([c], none) := by
  rw [step, if_pos ends.inRange]
  simp only [ends.last, ← ends.value, Char.ofNat_toNat]

/-- A byte that is out of range ends what is pending and is read as if nothing were. -/
theorem step_of_outOfRange
    (outOfRange : ¬(pending.low ≤ byte.toNat ∧ byte.toNat ≤ pending.high)) :
    step (some pending) byte.toNat = (replacement :: (first byte.toNat).1, (first byte.toNat).2) :=
  if_neg outOfRange

theorem decodeFrom_cons
    {state after : Option Pending}
    {done : List Char}
    (stepped : step state byte.toNat = (done, after)) :
    decodeFrom state (byte :: rest) = done ++ decodeFrom after rest :=
  congrArg (fun result : List Char × Option Pending => result.1 ++ decodeFrom result.2 rest) stepped

theorem decodeFrom_foldlM
    (advanced : read.foldlM Pending.advance? pending = some next) :
    decodeFrom (some pending) (read ++ rest) = decodeFrom (some next) rest := by
  induction read generalizing pending with
  | nil =>
    obtain rfl : pending = next := Option.some.inj advanced
    rfl
  | cons byte read ih =>
    rw [List.foldlM_cons, Option.bind_eq_bind, Option.bind_eq_some_iff] at advanced
    obtain ⟨middle, first, later⟩ := advanced
    exact (decodeFrom_cons (step_of_advance? first)).trans (ih later)

theorem decode_pending
    (opened : pending? read = some pending) :
    decode (read ++ rest) = decodeFrom (some pending) rest := by
  cases read with
  | nil => cases opened
  | cons byte read =>
    obtain ⟨start, lead, advanced⟩ := Option.bind_eq_some_iff.mp opened
    exact (decodeFrom_cons (step_of_lead? lead)).trans (decodeFrom_foldlM advanced)

theorem decode_encodeChar_append :
    decode (encodeChar c ++ rest) = c :: decode rest := by
  obtain empty | ⟨read, last, bytes⟩ := List.eq_nil_or_concat (encodeChar c)
  · obtain ⟨_, bytes⟩ | ⟨_, _, bytes⟩ | ⟨_, _, _, bytes⟩ | ⟨_, _, _, _, bytes⟩ :=
      encodeChar_cases (c := c)
    all_goals simp [bytes] at empty
  rw [List.concat_eq_append] at bytes
  rw [bytes]
  cases read with
  | nil =>
    obtain ⟨short, value⟩ := encodeChar_eq_one_iff.mp bytes
    have read : decode (last :: rest) = _ := decodeFrom_cons (step_of_lt short)
    rwa [← value, Char.ofNat_toNat] at read
  | cons byte read =>
    obtain ⟨pending, opened, ends⟩ := (ends_iff (List.cons_ne_nil _ _)).mpr bytes
    rw [List.append_assoc, decode_pending opened]
    exact decodeFrom_cons (step_of_ends ends)

/-- Decoding undoes encoding. -/
theorem decode_encode
    (text : List Char) :
    decode (encode text) = text := by
  induction text with
  | nil => rfl
  | cons c text ih => rw [encode, List.flatMap_cons, decode_encodeChar_append, ← encode, ih]

end Beginnings

section Parts

variable {part rest : List UInt8}

/-- Bytes that are replaced together: the beginning of some character, or a single byte. -/
def Part (part : List UInt8) : Prop := part ≠ [] ∧ ((∃ c, part <+: encodeChar c) ∨ part.length = 1)

/-- The longest part of what stands where no character does. -/
structure MaximalPart (part rest : List UInt8) : Prop where
  unconvertible : ∀ c, ¬encodeChar c <+: part ++ rest
  isPart : Part part
  longest : ∀ longer, longer <+: part ++ rest → Part longer → longer.length ≤ part.length

/-- A text that bytes stand for, with U+FFFD for every maximal part of ill-formed input. -/
inductive Replaced : List UInt8 → List Char → Prop where
  | nil : Replaced [] []
  | char {rest : List UInt8} {text : List Char} (c : Char) :
      Replaced rest text → Replaced (encodeChar c ++ rest) (c :: text)
  | part {part rest : List UInt8} {text : List Char} :
      MaximalPart part rest → Replaced rest text → Replaced (part ++ rest) (replacement :: text)

theorem decode_of_stray
    {byte : UInt8}
    (stray : ∀ c, ¬[byte] <+: encodeChar c) :
    decode ([byte] ++ rest) = replacement :: decode rest := by
  have long : ¬byte.toNat < 0x80 := by
    intro short
    have bytes : encodeChar (Char.ofNat byte.toNat) = [byte] :=
      encodeChar_eq_one_iff.mpr ⟨short, toNat_ofNat (.inl (by omega))⟩
    exact stray _ (bytes ▸ List.prefix_rfl : [byte] <+: encodeChar (Char.ofNat byte.toNat))
  have none : lead? byte.toNat = none := by
    cases lead : lead? byte.toNat with
    | none => rfl
    | some pending =>
      obtain ⟨c, begins⟩ := exists_begins (pending?_one_iff.mpr lead)
      exact absurd begins (stray c)
  exact decodeFrom_cons (step_of_stray long none)

/-- The machine is between characters, or just past the end of the part. -/
theorem decode_maximalPart
    (maximal : MaximalPart part rest) :
    decode (part ++ rest) = replacement :: decode rest := by
  obtain ⟨unconvertible, ⟨nonempty, begins⟩, longest⟩ := maximal
  by_cases beginning : ∃ c, part <+: encodeChar c
  · obtain ⟨c, back, bytes⟩ := beginning
    cases back with
    | nil => exact absurd ⟨rest, by rw [← bytes, List.append_nil]⟩ (unconvertible c)
    | cons next back =>
      obtain ⟨pending, opened, -⟩ := inRange_of_begins nonempty
        (⟨back, by rw [← bytes, List.append_assoc, List.singleton_append]⟩ :
          part ++ [next] <+: encodeChar c)
      rw [decode_pending opened]
      cases rest with
      | nil => rfl
      | cons byte rest =>
        refine decodeFrom_cons (step_of_outOfRange fun inRange => ?_)
        have taken : part ++ [byte] <+: part ++ byte :: rest :=
          ⟨rest, by rw [List.append_assoc, List.singleton_append]⟩
        cases missing : pending.more with
        | zero =>
          obtain ⟨c, ends⟩ := exists_ends opened missing inRange
          exact unconvertible c ((ends_iff nonempty).mp ⟨pending, opened, ends⟩ ▸ taken)
        | succ more =>
          have longer : pending? (part ++ [byte]) =
              some ⟨pending.value * 64 + (byte.toNat - 0x80), 0x80, 0xBF, more⟩ := by
            rw [pending?_snoc nonempty, opened]
            exact advance?_eq_some_iff.mpr ⟨inRange, missing, rfl, rfl, rfl⟩
          have short := longest _ taken ⟨by simp, .inl (exists_begins longer)⟩
          rw [List.length_append, List.length_singleton] at short
          omega
  · obtain ⟨byte, rfl⟩ := List.length_eq_one_iff.mp (begins.resolve_left beginning)
    exact decode_of_stray (not_exists.mp beginning)

/-- Among the beginnings of a list with a property, one is longest. -/
theorem exists_longest
    {p : List UInt8 → Prop}
    (front back : List UInt8)
    (holds : p front) :
    ∃ longest rest, longest ++ rest = front ++ back ∧ p longest ∧
      ∀ longer, longer <+: longest ++ rest → p longer → longer.length ≤ longest.length := by
  induction size : back.length using Nat.strongRecOn generalizing front back with
  | ind size ih =>
    by_cases further : ∃ longer, longer <+: front ++ back ∧ p longer ∧ front.length < longer.length
    · obtain ⟨longer, ⟨rest, whole⟩, holds', more⟩ := further
      have lengths := congrArg List.length whole
      rw [List.length_append, List.length_append] at lengths
      rw [← whole]
      exact ih rest.length (by omega) longer rest holds' rfl
    · refine ⟨front, back, rfl, holds, fun longer begins holds' => ?_⟩
      exact Nat.le_of_not_lt fun more => further ⟨longer, begins, holds', more⟩

theorem exists_replaced
    (bytes : List UInt8) :
    ∃ text, Replaced bytes text := by
  induction size : bytes.length using Nat.strongRecOn generalizing bytes with
  | ind size ih =>
    cases bytes with
    | nil => exact ⟨[], .nil⟩
    | cons byte bytes =>
      by_cases convertible : ∃ c, encodeChar c <+: byte :: bytes
      · obtain ⟨c, rest, whole⟩ := convertible
        have nonempty : 0 < (encodeChar c).length := by
          obtain ⟨_, bytes⟩ | ⟨_, _, bytes⟩ | ⟨_, _, _, bytes⟩ | ⟨_, _, _, _, bytes⟩ :=
            encodeChar_cases (c := c)
          all_goals simp [bytes]
        have lengths := congrArg List.length whole
        rw [List.length_append] at lengths
        obtain ⟨text, replaced⟩ := ih rest.length (by omega) rest rfl
        exact ⟨c :: text, whole ▸ replaced.char c⟩
      · obtain ⟨part, rest, whole, isPart, longest⟩ :=
          exists_longest (p := Part) [byte] bytes ⟨by simp, .inr rfl⟩
        have nonempty := List.length_pos_iff.mpr isPart.1
        have lengths := congrArg List.length whole
        rw [List.length_append, List.length_append, List.length_singleton] at lengths
        rw [List.length_cons] at size
        obtain ⟨text, replaced⟩ := ih rest.length (by omega) rest rfl
        rw [← List.singleton_append, ← whole] at convertible ⊢
        exact ⟨replacement :: text, replaced.part ⟨not_exists.mp convertible, isPart, longest⟩⟩

/-- Decoding is the substitution of maximal parts. -/
theorem replaced_iff
    {bytes : List UInt8}
    {text : List Char} :
    Replaced bytes text ↔ decode bytes = text := by
  have sound : ∀ {text}, Replaced bytes text → decode bytes = text := by
    intro text replaced
    induction replaced with
    | nil => rfl
    | char c _ ih => rw [decode_encodeChar_append, ih]
    | part maximal _ ih => rw [decode_maximalPart maximal, ih]
  refine ⟨sound, ?_⟩
  rintro rfl
  obtain ⟨text, replaced⟩ := exists_replaced bytes
  rwa [sound replaced]

end Parts

section Strings

/-- The bytes of a character are those that strings are made of. -/
theorem encodeChar_eq
    (c : Char) :
    encodeChar c = String.utf8EncodeChar c := by
  have valid : c.toNat < 0xD800 ∨ 0xDFFF < c.toNat ∧ c.toNat < 0x110000 := c.valid
  rw [encodeChar, String.utf8EncodeChar, show c.val.toNat = c.toNat from rfl]
  generalize c.toNat = n at valid
  have last : n % 64 + 128 = 0x80 + n % 64 := Nat.add_comm _ _
  have middle : n / 64 % 64 + 128 = 0x80 + n / 64 % 64 := Nat.add_comm _ _
  split
  · rw [if_pos (by omega)]
  split
  · rw [if_neg (by omega), if_pos (by omega), last, show n / 64 % 32 + 192 = 0xC0 + n / 64 by omega]
  split
  · rw [if_neg (by omega), if_neg (by omega), if_pos (by omega), last, middle,
      show n / 4096 % 16 + 224 = 0xE0 + n / 4096 by omega]
  · rw [if_neg (by omega), if_neg (by omega), if_neg (by omega), last, middle,
      show n / 4096 % 64 + 128 = 0x80 + n / 4096 % 64 by omega,
      show n / 262144 % 8 + 240 = 0xF0 + n / 262144 by omega]

/-- The bytes of a string's characters are the bytes it is stored as. -/
theorem encode_toList
    (string : String) :
    (encode string.toList).toByteArray = string.toByteArray := by
  rw [encode, funext encodeChar_eq]
  exact String.utf8Encode_toList

end Strings

end Oberon.Text.Utf8

namespace Oberon

open Text

namespace Source

@[simp] theorem text_ofText
    (name string : String) :
    (ofText name string).text = string.toList :=
  Utf8.decode_encode string.toList

theorem text_ofFile_eq_iff
    {name : String}
    {content : List UInt8}
    {text : List Char} :
    (ofFile name content).text = text ↔ Utf8.Replaced content text := by
  rw [ofFile_eq, Source.text, Utf8.replaced_iff]

end Source

theorem TokenStream.ofSource_ofText
    (name string : String) :
    ofSource (.ofText name string) = ofText name string.toList := by
  rw [ofSource, Source.text_ofText]
  rfl

/-- A file and the text that its bytes stand for are scanned and parsed alike, and the source that
holds a string has the string's bytes and is scanned as the string's characters. -/
theorem Source.file_reads_as_text
    (name : String)
    (content : List UInt8) :
    (∃ text, Utf8.Replaced content text ∧
      (∀ other, Utf8.Replaced content other → other = text) ∧
      TokenStream.ofSource (ofFile name content) =
        TokenStream.ofSource (ofText name (String.ofList text)) ∧
      Parsed.ofSource (ofFile name content) =
        Parsed.ofSource (ofText name (String.ofList text))) ∧
    ∀ string : String,
      (ofText name string).bytes.toByteArray = string.toByteArray ∧
      (ofText name string).text = string.toList ∧
      TokenStream.ofSource (ofText name string) = TokenStream.ofText name string.toList := by
  have same : TokenStream.ofSource (ofFile name content) =
      TokenStream.ofSource (ofText name (String.ofList (ofFile name content).text)) := by
    rw [TokenStream.ofSource_ofText, String.toList_ofList, TokenStream.ofSource, ofFile_eq]
  refine ⟨⟨(ofFile name content).text, text_ofFile_eq_iff.mp rfl, ?_, same, ?_⟩, ?_⟩
  · intro other replaced
    exact (text_ofFile_eq_iff.mpr replaced).symm
  · rw [Parsed.ofSource, same, Parsed.ofSource]
  · intro string
    exact ⟨Utf8.encode_toList string, text_ofText name string,
      TokenStream.ofSource_ofText name string⟩

end Oberon
