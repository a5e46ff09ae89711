import FrontEnd.Text.Quoted

/-!
# JSON text

The part of JSON that reports need: objects of strings, whole numbers and arrays, written on one
line without blanks. The caller gives the members of an object in the order in which they are to
stand.

A string keeps every character except the quote, the backslash and the controls below U+0020; of
those, the five with a letter of their own take it and the others their code in four digits.
-/

namespace FrontEnd

/-- A JSON value. -/
inductive JsonText where
  /-- A string. -/
  | string (s : String)
  /-- A whole number. -/
  | number (n : Nat)
  /-- An array. -/
  | array (items : List JsonText)
  /-- An object. -/
  | object (members : List (String × JsonText))
deriving Repr

namespace JsonText

/-- A code below 256 in four hexadecimal digits. -/
def hex4 (n : Nat) : String :=
  "00" ++ String.ofList [Nat.digitChar (n / 16), Nat.digitChar (n % 16)]

/-- A character as it stands in a string. -/
def escaped (c : Char) : String :=
  if c = '"' then "\\\""
  else if c = '\\' then "\\\\"
  else if c = '\x08' then "\\b"
  else if c = '\x0c' then "\\f"
  else if c = '\n' then "\\n"
  else if c = '\r' then "\\r"
  else if c = '\t' then "\\t"
  else if c.toNat < 0x20 then "\\u" ++ hex4 c.toNat
  else c.toString

/-- A string between its quotes. -/
def quoted (s : String) : String :=
  "\"" ++ String.join (s.toList.map escaped) ++ "\""

mutual

/-- The text of a value. -/
def render : JsonText → String
  | string s => quoted s
  | number n => toString n
  | array items => "[" ++ ",".intercalate (renderItems items) ++ "]"
  | object members => "\x7b" ++ ",".intercalate (renderMembers members) ++ "\x7d"

/-- The texts of the items of an array. -/
def renderItems : List JsonText → List String
  | [] => []
  | v :: vs => v.render :: renderItems vs

/-- The texts of the members of an object. -/
def renderMembers : List (String × JsonText) → List String
  | [] => []
  | (key, v) :: rest => (quoted key ++ ":" ++ v.render) :: renderMembers rest

end

end JsonText

end FrontEnd
