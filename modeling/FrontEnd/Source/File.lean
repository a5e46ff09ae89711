import FrontEnd.Source.Lines

/-!
# Source files

A source file is a text under the path by which it is shown. The path is only shown, never
interpreted.
-/

namespace FrontEnd

/-- A text with the path under which it is shown. -/
structure SourceFile where
  /-- The path. -/
  path : String
  /-- The text. -/
  text : String
deriving DecidableEq, Repr, Inhabited

namespace SourceFile

/-- Where a span starts, by line and column. -/
def position (file : SourceFile) (span : Span) : Position :=
  (Lines.ofString file.text).position span.start

end SourceFile

end FrontEnd
