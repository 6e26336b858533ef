import Oberon.Diagnostic

/-!
# Line tables

The offsets at which the lines of a text start, and the line of an offset by a binary search among
them.  Lines end with a line feed; the line feed itself still belongs to its line, and an offset
past the end belongs to the last line.

Offsets, line numbers and columns are machine words.  Whatever would overflow a word, fall below
zero or reach outside of the text yields nothing.
-/

namespace Oberon

namespace Checked

/-- The sum, unless it is no word. -/
def add? (first second : Nat) : Option Nat :=
  if first + second < wordCount then some (first + second) else none

/-- The difference, unless it is negative. -/
def subtract? (first second : Nat) : Option Nat :=
  if second ≤ first then some (first - second) else none

/-- The characters from one index to another, if both are in range and in order. -/
def slice? (text : List Char) (start stop : Nat) : Option (List Char) :=
  if start ≤ stop ∧ stop ≤ text.length then some ((text.take stop).drop start) else none

/-- Looks for the boundary among `size` elements from an index on. -/
def searchFrom (test : Nat → Bool) (words : List Nat) (base size : Nat) : Nat :=
  if size ≤ 1 then
    if words[base]?.any test then base + 1 else base
  else
    let middle := base + size / 2
    searchFrom test words (if words[middle]?.any test then middle else base) (size - size / 2)
termination_by size

/-- The index of the first element that fails a test which all elements before it pass. -/
def partitionPoint (test : Nat → Bool) (words : List Nat) : Nat :=
  if words.isEmpty then 0 else searchFrom test words 0 words.length

end Checked

open Checked

/-- A text and the offsets at which its lines start. -/
structure LineTable where
  text : List Char
  starts : List Nat
  deriving DecidableEq, Repr

namespace LineTable

/-- A line starts at the beginning and after every line feed. -/
def ofText? (text : List Char) : Option LineTable := do
  let feeds := text.zipIdx.filter (·.1 == '\n')
  let starts ← feeds.mapM fun feed => add? (toWord feed.2) 1
  return ⟨text, 0 :: starts⟩

/-- The index of the line that an offset lies in. -/
def lineOf (table : LineTable) (offset : Nat) : Nat :=
  -- subtraction stops at zero
  partitionPoint (fun start => decide (start ≤ offset)) table.starts - 1

/-- Where a line stops: before its line feed, or at the end of the text. -/
def stopOf? (table : LineTable) (index : Nat) : Option Nat :=
  match table.starts[index + 1]? with
  | some next => subtract? next 1
  | none => some table.text.length

/-- A line without the carriage returns at its end. -/
def trimmed (line : List Char) : List Char :=
  (line.reverse.dropWhile (· == '\r')).reverse

/-- The place of an offset in a file. -/
def locate? (table : LineTable) (name : String) (offset : Nat) : Option Location := do
  let index := table.lineOf offset
  let start ← table.starts[index]?
  let stop ← table.stopOf? index
  let line ← slice? table.text start stop
  let number ← add? (toWord index) 1
  let distance ← subtract? offset (toWord start)
  let column ← add? distance 1
  return ⟨name, number, column, String.ofList (trimmed line)⟩

end LineTable

end Oberon
