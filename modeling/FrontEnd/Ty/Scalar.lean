/-!
# Scalar types

The types that have a name of their own in the language: integers of four widths, signed or not,
floats of two widths, and booleans. The names are the words a program writes, so the same list
serves the reader of types and their printer.
-/

namespace FrontEnd

/-- The widths of an integer type. -/
inductive IntWidth where
  | w8
  | w16
  | w32
  | w64
deriving DecidableEq, Repr

/-- The widths of a float type. -/
inductive FloatWidth where
  | w32
  | w64
deriving DecidableEq, Repr

/-- The number of bits of an integer width. -/
def IntWidth.bits : IntWidth → Nat
  | .w8 => 8
  | .w16 => 16
  | .w32 => 32
  | .w64 => 64

/-- The number of bits of a float width. -/
def FloatWidth.bits : FloatWidth → Nat
  | .w32 => 32
  | .w64 => 64

/-- A type with a name of its own. -/
inductive Scalar where
  /-- An integer type. -/
  | int (width : IntWidth) (signed : Bool)
  /-- A float type. -/
  | float (width : FloatWidth)
  /-- The type of `true` and `false`. -/
  | bool
deriving DecidableEq, Repr

namespace Scalar

/-- The name of a scalar type, as a program writes it. -/
def name : Scalar → String
  | .int .w8 true => "i8"
  | .int .w8 false => "u8"
  | .int .w16 true => "i16"
  | .int .w16 false => "u16"
  | .int .w32 true => "i32"
  | .int .w32 false => "u32"
  | .int .w64 true => "i64"
  | .int .w64 false => "u64"
  | .float .w32 => "f32"
  | .float .w64 => "f64"
  | .bool => "bool"

/-- Every scalar type once. -/
def all : List Scalar :=
  [.int .w8 true, .int .w8 false, .int .w16 true, .int .w16 false, .int .w32 true, .int .w32 false,
   .int .w64 true, .int .w64 false, .float .w32, .float .w64, .bool]

/-- The scalar type of a name. -/
def ofName? (word : String) : Option Scalar :=
  all.find? (·.name == word)

/-- The number of bits of a number, `none` for a boolean. -/
def bits? : Scalar → Option Nat
  | .int width _ => some width.bits
  | .float width => some width.bits
  | .bool => none

theorem mem_all (s : Scalar) : s ∈ all := by
  rcases s with ⟨w, b⟩ | w | _
  · cases w <;> cases b <;> decide
  · cases w <;> decide
  · decide

theorem ofName?_name (s : Scalar) : ofName? s.name = some s := by
  rcases s with ⟨w, b⟩ | w | _
  · cases w <;> cases b <;> decide
  · cases w <;> decide
  · decide

end Scalar

end FrontEnd
