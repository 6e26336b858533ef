import Oberon.Symbol

/-!
# Sets of symbols

Most analyses of the grammar are about the next symbol, and compute sets of symbols.  A set has one
bit for each symbol (`Symbol.bit`), so that union, intersection and difference are operations on bit
vectors, and an analysis of the whole grammar is a short computation.
-/

namespace Oberon

namespace Symbol

/-- All symbols, in the order of their bits. -/
def all : List Symbol :=
  [endOfFile, ident, integer, real, string, character, assembler] ++ Word.all.map word ++
    Mark.all.map mark

/-- The place of a symbol in a set. -/
def bit : Symbol → Nat
  | endOfFile => 0
  | ident => 1
  | integer => 2
  | real => 3
  | string => 4
  | character => 5
  | assembler => 6
  | word w => 7 + w.ctorIdx
  | mark m => 64 + m.ctorIdx

theorem getElem?_all_bit (symbol : Symbol) : all[symbol.bit]? = some symbol := by
  cases symbol with
  | word w => cases w <;> rfl
  | mark m => cases m <;> rfl
  | _ => rfl

theorem mem_all (symbol : Symbol) : symbol ∈ all := List.mem_of_getElem? symbol.getElem?_all_bit

theorem bit_lt (symbol : Symbol) : symbol.bit < 128 := by
  obtain ⟨within, -⟩ := List.getElem?_eq_some_iff.mp symbol.getElem?_all_bit
  exact Nat.lt_of_lt_of_le within (by decide)

theorem bit_inj {symbol other : Symbol} : symbol.bit = other.bit ↔ symbol = other := by
  constructor
  · intro same
    have found := symbol.getElem?_all_bit
    rw [same, other.getElem?_all_bit] at found
    exact (Option.some.inj found).symm
  · rintro rfl
    rfl

end Symbol

/-- A set of symbols. -/
structure SymbolSet where
  bits : BitVec 128
  deriving DecidableEq

namespace SymbolSet

instance : Membership Symbol SymbolSet := ⟨fun set symbol => set.bits.getLsbD symbol.bit = true⟩

instance (symbol : Symbol) (set : SymbolSet) : Decidable (symbol ∈ set) :=
  inferInstanceAs (Decidable (set.bits.getLsbD symbol.bit = true))

instance : EmptyCollection SymbolSet := ⟨⟨0⟩⟩

instance : Union SymbolSet := ⟨fun left right => ⟨left.bits ||| right.bits⟩⟩

instance : Inter SymbolSet := ⟨fun left right => ⟨left.bits &&& right.bits⟩⟩

instance : SDiff SymbolSet := ⟨fun left right => ⟨left.bits &&& ~~~right.bits⟩⟩

/-- The set of all symbols. -/
def full : SymbolSet := ⟨BitVec.allOnes 128⟩

/-- The set of the symbols in a list. -/
def of (symbols : List Symbol) : SymbolSet :=
  symbols.foldr (fun symbol set => ⟨BitVec.twoPow 128 symbol.bit⟩ ∪ set) ∅

/-- One set for the symbols in a list, and another one for all others. -/
def choose (symbols : List Symbol) (inside outside : SymbolSet) : SymbolSet :=
  of symbols ∩ inside ∪ outside \ of symbols

variable
  {symbol : Symbol}
  {left right : SymbolSet}

theorem mem_def {set : SymbolSet} : symbol ∈ set ↔ set.bits.getLsbD symbol.bit = true := Iff.rfl

@[simp] theorem not_mem_empty : symbol ∉ (∅ : SymbolSet) := by
  rw [mem_def]
  exact Bool.not_eq_true _ ▸ BitVec.getLsbD_zero

@[simp] theorem mem_full : symbol ∈ full := by
  rw [mem_def, full, BitVec.getLsbD_allOnes]
  exact decide_eq_true symbol.bit_lt

@[simp] theorem mem_union : symbol ∈ left ∪ right ↔ symbol ∈ left ∨ symbol ∈ right := by
  rw [mem_def, mem_def, mem_def, ← Bool.or_eq_true, ← BitVec.getLsbD_or]
  rfl

@[simp] theorem mem_inter : symbol ∈ left ∩ right ↔ symbol ∈ left ∧ symbol ∈ right := by
  rw [mem_def, mem_def, mem_def, ← Bool.and_eq_true, ← BitVec.getLsbD_and]
  rfl

@[simp] theorem mem_sdiff : symbol ∈ left \ right ↔ symbol ∈ left ∧ symbol ∉ right := by
  rw [mem_def, mem_def, mem_def]
  change (left.bits &&& ~~~right.bits).getLsbD symbol.bit = true ↔ _
  simp [symbol.bit_lt]

@[simp] theorem mem_of {symbols : List Symbol} : symbol ∈ of symbols ↔ symbol ∈ symbols := by
  induction symbols with
  | nil => simp [of]
  | cons head rest ih =>
    have single : symbol ∈ (⟨BitVec.twoPow 128 head.bit⟩ : SymbolSet) ↔ symbol = head := by
      rw [mem_def, BitVec.getLsbD_twoPow]
      simp [head.bit_lt, Symbol.bit_inj, eq_comm]
    rw [List.mem_cons, ← ih, ← single]
    exact mem_union

@[simp] theorem mem_choose {symbols : List Symbol} :
    symbol ∈ choose symbols left right ↔ if symbol ∈ symbols then symbol ∈ left else symbol ∈ right := by
  rw [choose, mem_union, mem_inter, mem_sdiff, mem_of]
  split <;> simp_all

/-- A set without a symbol outside another one is a part of it. -/
theorem mem_of_sdiff_eq_empty
    (nothing : left \ right = ∅)
    (member : symbol ∈ left) :
    symbol ∈ right := by
  have rest : symbol ∉ left \ right := nothing ▸ not_mem_empty
  simpa [member] using rest

end SymbolSet

end Oberon
