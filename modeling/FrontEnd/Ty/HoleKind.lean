import FrontEnd.Ty.Basic

/-!
# What a hole may become

Every hole starts from a literal, and the literal limits the types it can take. The limits form a
small order: `null` lies below `number`, which lies below `int` and `float`, and those two exclude
each other. Two limits on the same hole combine to the stricter one.
-/

namespace FrontEnd

/-- The limit on a hole. -/
inductive HoleKind where
  /-- Any type at all, as for `null`. -/
  | null
  /-- Any number type, as for an integer literal. -/
  | number
  /-- Any integer type. -/
  | int
  /-- Any float type, as for a float literal. -/
  | float
deriving DecidableEq, Repr, Inhabited

namespace HoleKind

/-- The stricter of two limits, if the two can hold together. -/
def meet? : HoleKind → HoleKind → Option HoleKind
  | .null, k => some k
  | k, .null => some k
  | .number, k => some k
  | k, .number => some k
  | .int, .int => some .int
  | .float, .float => some .float
  | _, _ => none

/-- Whether a hole under a limit may become a type. -/
def admits : HoleKind → Ty → Bool
  | .null, _ => true
  | .number, a => a.isNumeric
  | .int, a => a.isInt
  | .float, a => a.isFloat

/-- How a message names a hole of which only the limit is known. -/
def name : HoleKind → String
  | .null => "untyped null"
  | .number => "untyped number"
  | .int => "untyped int"
  | .float => "untyped float"

/-- Every limit once, the weakest first. -/
def all : List HoleKind :=
  [.null, .number, .int, .float]

/-- The type that a hole takes when nothing decides it; an unlimited hole has none. -/
def default? : HoleKind → Option Ty
  | .null => none
  | .number => some .i64
  | .int => some .i64
  | .float => some .f32

end HoleKind

end FrontEnd
