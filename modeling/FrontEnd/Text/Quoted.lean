import FrontEnd.Text.GraphemeExtend
import FrontEnd.Text.Unprintable

/-!
# A character between quotes

Messages show a single character between single quotes, in a form that can be read on a screen: the
common controls by letter, the quote and the backslash behind a backslash, and whatever would not
show (or would sit on the quote before it) by its code point in hexadecimal.
-/

namespace FrontEnd.Text

/-- A code point in hexadecimal digits, lower case and without leading zeros. -/
def hexDigits (n : Nat) : String :=
  String.ofList (Nat.toDigits 16 n)

/-- A character as it is shown between single quotes. -/
def quotedBody (c : Char) : String :=
  if c = '\x00' then "\\0"
  else if c = '\t' then "\\t"
  else if c = '\r' then "\\r"
  else if c = '\n' then "\\n"
  else if c = '\'' then "\\'"
  else if c = '\\' then "\\\\"
  else if isGraphemeExtend c || !isPrintable c then "\\u\x7b" ++ hexDigits c.toNat ++ "\x7d"
  else c.toString

/-- A character between single quotes. -/
def quoted (c : Char) : String :=
  "'" ++ quotedBody c ++ "'"

end FrontEnd.Text
