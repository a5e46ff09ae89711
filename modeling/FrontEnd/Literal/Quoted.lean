import FrontEnd.Token.Escape

/-!
# The value of string and rune literals

The value of a quoted literal is what stands between its quotes, with escapes undone.
-/

namespace FrontEnd.Literal

/-- What stands between the quotes `q` of a literal; `none` if it is not quoted so. -/
def unquoted? (q : Char) : List Char → Option (List Char)
  | [] => none
  | c :: cs => if c = q && cs.getLast? = some q then some cs.dropLast else none

/-- The value of a string literal. -/
def string (text : List Char) : List Char :=
  Escape.decode ((unquoted? '"' text).getD text)

/-- The value of a rune literal; `none` if the text is not one. -/
def rune? (text : List Char) : Option Char :=
  match unquoted? '\'' text with
  | none => none
  | some [] => none
  | some ('\\' :: code :: _) => Escape.value? code
  | some ['\\'] => none
  | some (c :: _) => some c

end FrontEnd.Literal
