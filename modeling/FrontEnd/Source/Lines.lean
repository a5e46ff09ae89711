import FrontEnd.Source.Span

/-!
# Lines and columns

Offsets become lines and columns through an index of the text that is built once: where lines
start, where tabs stand, and where the characters of more than one byte stand. A column counts
characters, with a tab as four, so it is the distance in bytes from the start of the line, less the
continuation bytes in between, plus three for every tab.

The index answers for every offset, also past the end of the text, where each byte counts as one
column of the last line.
-/

namespace FrontEnd

/-- A place in a text as people count: both parts start from one. -/
structure Position where
  /-- The line, from one. -/
  line : Nat
  /-- The column, from one, in characters. -/
  column : Nat
deriving DecidableEq, Repr, Inhabited

/-- The number of columns that a tab takes. -/
def tabWidth : Nat :=
  4

/-- Characters with the byte offset at which each one stands, for a text that starts at `offset`. -/
def withOffsets (offset : Nat) : List Char → List (Nat × Char)
  | [] => []
  | c :: cs => (offset, c) :: withOffsets (offset + c.utf8Size) cs

/-- An index of a text from which positions are computed. All three lists are in increasing order
of offset. -/
structure Lines where
  /-- Where each line starts. -/
  starts : List Nat
  /-- Where each tab stands. -/
  tabs : List Nat
  /-- Where each character of more than one byte stands, with the number of bytes after its
  first. -/
  wide : List (Nat × Nat)
deriving DecidableEq, Repr

namespace Lines

/-- The index of a text given by its characters. -/
def ofList (text : List Char) : Lines :=
  let marks := withOffsets 0 text
  { starts := 0 :: marks.filterMap fun m ↦ if m.2 = '\n' then some (m.1 + 1) else none
    tabs := marks.filterMap fun m ↦ if m.2 = '\t' then some m.1 else none
    wide := marks.filterMap fun m ↦
      if 1 < m.2.utf8Size then some (m.1, m.2.utf8Size - 1) else none }

/-- The index of a text. -/
def ofString (text : String) : Lines :=
  ofList text.toList

/-- The number of lines: one more than there are line feeds. -/
def count (l : Lines) : Nat :=
  l.starts.length

/-- The lines that start at or before an offset. -/
def startsUpTo (l : Lines) (offset : Nat) : List Nat :=
  l.starts.takeWhile (· ≤ offset)

/-- Where the line of an offset starts. -/
def lineStart (l : Lines) (offset : Nat) : Nat :=
  (l.startsUpTo offset).getLastD 0

/-- The number of tabs in the stretch from one offset to another. -/
def tabsIn (l : Lines) (start stop : Nat) : Nat :=
  l.tabs.countP fun t ↦ start ≤ t && t < stop

/-- The number of continuation bytes of the characters that stand in a stretch. -/
def continuationBytesIn (l : Lines) (start stop : Nat) : Nat :=
  (l.wide.filter fun w ↦ start ≤ w.1 && w.1 < stop).foldl (fun n w ↦ n + w.2) 0

/-- The position of an offset. -/
def position (l : Lines) (offset : Nat) : Position :=
  let start := l.lineStart offset
  { line := (l.startsUpTo offset).length
    column := offset - start - l.continuationBytesIn start offset + 1
      + l.tabsIn start offset * (tabWidth - 1) }

end Lines

end FrontEnd
