import FrontEnd.Check.Program
import FrontEnd.Ty.Printer

/-!
# Listing the types of a program

One line for each definition that checking did not cut short: what it is, its name and its type; and
below a function, indented, its parameters and its local variables.
-/

namespace FrontEnd.Report

/-- The name and the type of a symbol; a question mark stands for a type that is not known. -/
def symbolLine (r : Report) (symbol : Nat) : String :=
  match r.program.symbols[symbol]? with
  | none => "?"
  | some s => s.name ++ ": " ++ (s.type?.map Ty.text).getD "?"

/-- The lines of a definition. -/
def definitionLines (r : Report) (d : Definition) : List String :=
  match d.content with
  | .function symbol params _ _ =>
    ("func " ++ r.symbolLine symbol)
      :: (params ++ d.locals).map fun s ↦ "    " ++ r.symbolLine s
  | .global v => ["let " ++ r.symbolLine v.symbol]

/-- The lines of the definitions that were not cut short. -/
def listing (r : Report) : List String :=
  (r.program.definitions.filter fun d ↦ !r.aborted.contains d.symbol).flatMap r.definitionLines

end FrontEnd.Report
