import FrontEnd.Ty.Basic

/-!
# Types as text

The printed form of a type. A pointer is a star in front of its element, with `const` between the
two where it applies; a function lists its parameters, in parentheses unless there is exactly one,
and its result behind an arrow. How a hole is written is left to the caller: a message names what is
known of it, everything else its number.

A type is printed by itself, from left to right (`text`), and as part of a message, where it is put
together from the texts of its parts (`render`). Each way has its own account of a list of
parameters.
-/

namespace FrontEnd

namespace Ty

/-! ### From left to right -/

/-- The parameters of a function behind the first, each with a comma before it. -/
def moreParams : List String → String
  | [] => ""
  | s :: ss => ", " ++ s ++ moreParams ss

/-- The parameters of a function, one after the other. -/
def textParams : List String → String
  | [] => "()"
  | [only] => only
  | first :: more => "(" ++ first ++ moreParams more ++ ")"

mutual

/-- The text of a type in which a hole is written as `name` says, from left to right. -/
def textBy (name : Nat → String) : Ty → String
  | scalar s => s.name
  | unit => "()"
  | pointer isConst a => (if isConst then "*const " else "*") ++ a.textBy name
  | func ps r => textParams (textAll name ps) ++ " -> " ++ r.textBy name
  | hole i => name i

/-- The texts of the types of a list. -/
def textAll (name : Nat → String) : List Ty → List String
  | [] => []
  | a :: as => a.textBy name :: textAll name as

end

/-- The text of a hole that stands for itself. -/
def holeText (id : Nat) : String :=
  "?" ++ toString id

/-- The text of a type, with holes by number. -/
def text (a : Ty) : String :=
  a.textBy holeText

theorem textAll_eq_map (name : Nat → String) (as : List Ty) :
    textAll name as = as.map (textBy name) := by
  induction as with
  | nil => rfl
  | cons a as ih => simp [textAll, ih]

/-! ### From the texts of the parts -/

/-- The parameters of a function, as written before the arrow. -/
def renderParams : List String → String
  | [only] => only
  | many => "(" ++ ", ".intercalate many ++ ")"

mutual

/-- The text of a type in which a hole is written as `name` says, from the texts of its parts. -/
def render (name : Nat → String) : Ty → String
  | scalar s => s.name
  | unit => "()"
  | pointer true a => "*const " ++ a.render name
  | pointer false a => "*" ++ a.render name
  | func ps r => renderParams (renderAll name ps) ++ " -> " ++ r.render name
  | hole i => name i

/-- The texts of the types of a list. -/
def renderAll (name : Nat → String) : List Ty → List String
  | [] => []
  | a :: as => a.render name :: renderAll name as

end

theorem renderAll_eq_map (name : Nat → String) (as : List Ty) :
    renderAll name as = as.map (render name) := by
  induction as with
  | nil => rfl
  | cons a as ih => simp [renderAll, ih]

end Ty

end FrontEnd
