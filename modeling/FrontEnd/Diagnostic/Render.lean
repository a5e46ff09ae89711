import FrontEnd.Diagnostic.Basic
import FrontEnd.Text.Json

/-!
# Diagnostics as text

A diagnostic is shown in one of three ways: on one plain line, as one JSON object, or for reading,
with a header, a title, a label at the marked place, and at times a hint. The third way is kept in
its parts, because where they stand on a screen is for others to decide.
-/

namespace FrontEnd

/-- The parts of a diagnostic that is shown for reading. -/
structure Card where
  /-- Where to look. -/
  header : String
  /-- The code and the message. -/
  title : String
  /-- What to write at the marked place. -/
  label : String
  /-- A hint on what to do. -/
  help? : Option String
deriving DecidableEq, Repr

namespace Diagnostic

/-- Whether the characters of a word stand in a row somewhere in a text. -/
def occursIn (word : List Char) : List Char → Bool
  | [] => word.isEmpty
  | c :: cs => word.isPrefixOf (c :: cs) || occursIn word cs

/-- Whether a word stands somewhere in a text. -/
def mentions (text word : String) : Bool :=
  occursIn word.toList text.toList

/-- Path, line and column, each behind a colon. -/
def place (d : Diagnostic) : String :=
  d.path ++ ":" ++ toString d.position.line ++ ":" ++ toString d.position.column

/-- The hint for a diagnostic. -/
def help? (d : Diagnostic) : Option String :=
  match d.category with
  | .inference =>
    if mentions d.message "untyped null" then some "cast the null to a concrete type with `as`"
    else some "add a type label"
  | .cast => some "only numbers, booleans and pointers to the same type can be cast"
  | _ => none

/-- A diagnostic on one plain line. -/
def plain (d : Diagnostic) : String :=
  "[" ++ d.moduleName ++ "] " ++ d.place ++ ": " ++ d.message

/-- A diagnostic as a JSON value, with members in the order of their names. -/
def json (d : Diagnostic) : JsonText :=
  .object
    [("category", .string d.category.title),
     ("code", .string d.category.code),
     ("column", .number d.position.column),
     ("file", .string d.path),
     ("line", .number d.position.line),
     ("message", .string d.message),
     ("module", .string d.moduleName),
     ("severity", .string "error"),
     ("spans",
       .array
         [.object
           [("end", .number d.span.stop),
            ("label", .string d.category.label),
            ("start", .number d.span.start)]])]

/-- A diagnostic for reading. -/
def card (d : Diagnostic) : Card :=
  { header := d.place
    title := "[" ++ d.category.code ++ "] Error: " ++ d.message
    label := d.category.label
    help? := d.help? }

end Diagnostic

end FrontEnd
