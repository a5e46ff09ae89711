/-!
# Escapes in string and rune literals

Between quotes a backslash and a code stand for a character that could not, or should not, stand
there itself. Reading back a literal undoes exactly that: one character for each plain character and
one for each pair of backslash and code.
-/

namespace FrontEnd.Escape

/-- The codes that may follow a backslash, with the characters they stand for. -/
def table : List (Char × Char) :=
  [('a', '\x07'), ('b', '\x08'), ('f', '\x0c'), ('n', '\n'), ('r', '\r'), ('t', '\t'),
   ('v', '\x0b'), ('0', '\x00'), ('\'', '\''), ('"', '"'), ('\\', '\\')]

/-- The character that a code stands for behind a backslash. -/
def value? (code : Char) : Option Char :=
  table.lookup code

/-- The code that stands for a character behind a backslash. -/
def code? (c : Char) : Option Char :=
  (table.find? (·.2 == c)).map (·.1)

/-- The characters that the inside of a literal stands for. A backslash without a code, which no
literal holds, is dropped. -/
def decode : List Char → List Char
  | '\\' :: code :: cs =>
    match value? code with
    | some c => c :: decode cs
    | none => decode cs
  | '\\' :: [] => []
  | c :: cs => c :: decode cs
  | [] => []

end FrontEnd.Escape
