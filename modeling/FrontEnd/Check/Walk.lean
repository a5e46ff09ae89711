import FrontEnd.Check.Error
import FrontEnd.Program.Basic
import FrontEnd.Table.Unify

/-!
# The state of checking

Checking walks through the definitions of a program with one state. Part of it lasts (the symbols,
whose types are filled in, and the errors) and part of it belongs to the definition at hand: its
scope, the table of its holes, the literals that are still waiting for a type, and whether a fatal
error has **halted** it.

A step of a walk that has been halted does nothing. Steps can therefore be put one behind another
without asking each time, and what they return is the state, and the tree, as it was when the fatal
error was found.
-/

namespace FrontEnd

/-- An error together with the file of the definition in which it was found. -/
structure Finding where
  /-- The file. -/
  file : Nat
  /-- The error. -/
  error : CheckError
deriving DecidableEq, Repr

/-- A literal that waits for its type. -/
structure Waiting where
  /-- Its hole. -/
  hole : Nat
  /-- Where it stands. -/
  span : Span
deriving DecidableEq, Repr

/-- The state of checking. -/
structure Walk where
  /-- The symbols of the program. -/
  symbols : List Symbol
  /-- Everything found so far, in order. -/
  findings : List Finding
  /-- The file of the definition at hand. -/
  file : Nat
  /-- The local names of the definition at hand. -/
  scope : Scope
  /-- The holes of the statement at hand. -/
  table : Table
  /-- The literals of the statement at hand that wait for a type, in the order of the source. -/
  waiting : List Waiting
  /-- Whether a fatal error has ended the definition at hand. -/
  halted : Bool

namespace Walk

/-- The state in which checking starts. -/
def start (symbols : List Symbol) : Walk :=
  { symbols, findings := [], file := 0, scope := .empty, table := .empty, waiting := []
    halted := false }

/-- The state at the start of a definition in a file. -/
def enter (w : Walk) (file : Nat) : Walk :=
  { w with file, halted := false }

/-- The state after a definition: nothing of it is left but symbols and errors. -/
def leave (w : Walk) : Walk :=
  { w with scope := .empty, table := .empty, waiting := [] }

/-- Records an error, and halts the definition if it is fatal. -/
def record (w : Walk) (e : CheckError) : Walk :=
  { w with findings := w.findings ++ [⟨w.file, e⟩], halted := w.halted || e.isFatal }

/-- One more step, unless the definition has been halted. -/
def andThen (w : Walk) (step : Walk → Walk) : Walk :=
  if w.halted then w else step w

/-- The state with another table. -/
def withTable (w : Walk) (t : Table) : Walk :=
  { w with table := t }

/-- The type of a symbol. -/
def symbolType? (w : Walk) (symbol : Nat) : Option Ty :=
  w.symbols[symbol]?.bind (·.type?)

/-- Gives a type to a symbol. -/
def setSymbolType (w : Walk) (symbol : Nat) (a : Ty) : Walk :=
  { w with symbols := w.symbols.modify symbol fun s ↦ { s with type? := some a } }

/-- Binds a symbol in the innermost frame. -/
def declare (w : Walk) (symbol : Nat) : Walk :=
  w.andThen fun w ↦
    match w.symbols[symbol]? with
    | none => w
    | some s =>
      match w.scope.declare s.name symbol with
      | .ok scope => { w with scope }
      | .error _ => w.record (.repeatedName s.name s.span)

/-- Opens a frame. -/
def push (w : Walk) : Walk :=
  w.andThen fun w ↦ { w with scope := w.scope.push }

/-- Closes a frame. -/
def pop (w : Walk) : Walk :=
  w.andThen fun w ↦ { w with scope := w.scope.pop }

end Walk

end FrontEnd
