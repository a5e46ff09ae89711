import FrontEnd.Text.Quoted

/-!
# Lexical faults

What can be wrong with a text before it has any structure. Reading tokens stops at the first fault,
so a text has at most one; its cause is kept as data and worded only here.
-/

namespace FrontEnd

/-- Why no token can be read at some place of a text. -/
inductive Fault where
  /-- A character that starts no token. -/
  | unknownCharacter (c : Char)
  /-- A string literal that runs to the end of the text. -/
  | unclosedString
  /-- A string literal that meets the end of its line. -/
  | newlineInString
  /-- A rune literal that runs to the end of the text. -/
  | unclosedRune
  /-- A rune literal without a character. -/
  | emptyRune
  /-- A rune literal with a second character. -/
  | longRune
  /-- A backslash before a character that is no escape code. -/
  | invalidEscape (code : Char)
  /-- A backslash at the end of the text. -/
  | missingEscape
  /-- A number that ends where a digit has to stand. -/
  | missingDigit
  /-- A second decimal point in a number. -/
  | secondPoint
  /-- A second exponent in a number. -/
  | secondExponent
  /-- A decimal point after the exponent of a number. -/
  | pointInExponent
  /-- A block comment that runs to the end of the text. -/
  | unclosedComment
deriving DecidableEq, Repr

/-- The wording of a fault. -/
def Fault.message : Fault → String
  | .unknownCharacter c => "unknown character: " ++ Text.quoted c
  | .unclosedString => "unclosed string literal"
  | .newlineInString => "string literal contains new line"
  | .unclosedRune => "unclosed rune literal"
  | .emptyRune => "empty rune literal"
  | .longRune => "rune literal contains multiple characters"
  | .invalidEscape code => "invalid escape code: \\" ++ code.toString
  | .missingEscape => "expected escape code"
  | .missingDigit => "expected digit"
  | .secondPoint => "multiple decimals in float literal"
  | .secondExponent => "multiple exponents in float literal"
  | .pointInExponent => "decimal point in exponent"
  | .unclosedComment => "unclosed block comment"

end FrontEnd
