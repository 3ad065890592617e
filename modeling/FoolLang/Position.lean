/-!
# Position — lines and columns of byte offsets

Lines and columns start at 1, only a line feed ends a line, and a column counts bytes.  Any offset has a position,
also one inside a character or past the end.  Its line is searched among the starts of all lines, half of them left
out at a time.  The search is none where it would read past the end of the starts or go below zero (`find?`); with the
starts of the lines of a text it does neither.

Offsets, lines and columns are natural numbers.  A line is one more than the index of one of the starts, and a column is
at most one more than the offset, so both are machine words wherever the offset is below the largest word; only at that
very offset could the `+ 1` of the column overflow.
-/
namespace FoolLang

structure Position where
  line : Nat
  column : Nat
  deriving DecidableEq

/-- The offsets right after each line feed, for a text that starts at `pos`. -/
def lineBreaks : Nat → List Char → List Nat
  | _, [] => []
  | pos, c :: cs =>
    let next := pos + c.utf8Size
    if c = '\n' then next :: lineBreaks next cs else lineBreaks next cs

namespace Position

/-- Where an offset stands among the starts of lines: at the one with this index, or between two, where it would get
this index. -/
inductive Slot
  | start (index : Nat)
  | gap (index : Nat)

/-- The index of the last start that is not after the offset, among `size` starts from index `base` on.  Half of them
are left out at a time, so their number is fuel enough. -/
def halve (starts : Array Nat) (offset : Nat) : Nat → Nat → Nat → Option Nat
  | 0, _, _ => none
  | fuel + 1, base, size =>
    if size ≤ 1 then some base
    else do
      let s ← starts[base + size / 2]?
      halve starts offset fuel (if offset < s then base else base + size / 2) (size - size / 2)

/-- Finds an offset among increasing starts. -/
def search? (starts : Array Nat) (offset : Nat) : Option Slot :=
  if starts.isEmpty then some (.gap 0)
  else do
    let i ← halve starts offset starts.size 0 starts.size
    let s ← starts[i]?
    return if s = offset then .start i else .gap (if s < offset then i + 1 else i)

/-- A difference that is not negative. -/
def minus? (m n : Nat) : Option Nat := if n ≤ m then some (m - n) else none

/-- The position of an offset, given the starts of all lines. -/
def find? (starts : Array Nat) (offset : Nat) : Option Position := do
  match ← search? starts offset with
  | .start i => return ⟨i + 1, 1⟩
  | .gap i =>
    let before ← minus? i 1
    let start ← starts[before]?
    let past ← minus? offset start
    return ⟨i, past + 1⟩

/-- The starts of all lines, given the line breaks. -/
def lineStarts (breaks : List Nat) : Array Nat := (0 :: breaks).toArray

/-- The position of a byte offset, given the line breaks of the whole text. -/
def ofOffset (breaks : List Nat) (offset : Nat) : Position :=
  (find? (lineStarts breaks) offset).getD ⟨1, offset + 1⟩

/-- The position of a byte offset of a text. -/
def locate (text : List Char) (offset : Nat) : Position := ofOffset (lineBreaks 0 text) offset

end Position
end FoolLang
