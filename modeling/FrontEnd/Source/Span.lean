/-!
# Spans of a text

A **span** is a stretch of a text, given by the byte offsets of its two ends in UTF-8. Everything
that can be pointed at (tokens, names, expressions, definitions) carries one, and lines and columns
are worked out from it only when something is reported.

Offsets are natural numbers: a text has no largest size here, and the operations below only compare
offsets and take the smaller or the larger. In a text of less than `2 ^ 32` bytes they are words of
32 bits.
-/

namespace FrontEnd

/-- The number of bytes that characters take in UTF-8. -/
def byteLength : List Char → Nat
  | [] => 0
  | c :: cs => c.utf8Size + byteLength cs

@[simp]
theorem byteLength_nil : byteLength [] = 0 :=
  rfl

@[simp]
theorem byteLength_cons (c : Char) (cs : List Char) :
    byteLength (c :: cs) = c.utf8Size + byteLength cs :=
  rfl

@[simp]
theorem byteLength_append (cs ds : List Char) :
    byteLength (cs ++ ds) = byteLength cs + byteLength ds := by
  induction cs with
  | nil => simp
  | cons c cs ih => simp [ih, Nat.add_assoc]

/-- A stretch of a text from byte `start` up to, and without, byte `stop`. -/
structure Span where
  /-- Offset of the first byte. -/
  start : Nat
  /-- Offset just after the last byte. -/
  stop : Nat
deriving DecidableEq, Repr, Inhabited

namespace Span

/-- The empty span at an offset. -/
def point (offset : Nat) : Span :=
  ⟨offset, offset⟩

/-- The number of bytes in a span. -/
def length (s : Span) : Nat :=
  s.stop - s.start

/-- Whether a span holds no byte. -/
def isEmpty (s : Span) : Bool :=
  s.start == s.stop

/-- The smallest span that covers two spans. -/
def merge (s t : Span) : Span :=
  ⟨min s.start t.start, max s.stop t.stop⟩

/-- The part of a text to mark for a span: an empty span is widened to one byte, so that there is
always something to mark. -/
def marked (s : Span) : Span :=
  ⟨s.start, max s.stop (s.start + 1)⟩

/-- The same span in a text that has `offset` more bytes in front. -/
def shift (offset : Nat) (s : Span) : Span :=
  ⟨s.start + offset, s.stop + offset⟩

end Span

end FrontEnd
