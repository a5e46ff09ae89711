import FrontEnd.Token.Number

/-!
# The value of integer literals

An integer literal stands for the number its digits spell in its radix. Underscores mean nothing,
and the value has to fit in 64 bits.
-/

namespace FrontEnd.Literal

/-- Why an integer literal has no value. -/
inductive IntegerError where
  /-- The value does not fit in 64 bits. -/
  | tooLarge
  /-- The text does not spell an integer. -/
  | malformed
deriving DecidableEq, Repr

/-- A literal without its underscores. -/
def withoutSeparators (text : List Char) : List Char :=
  text.filter (· ≠ '_')

/-- The radix of a literal and its digits. -/
def radixAndDigits : List Char → Nat × List Char
  | '0' :: c :: ds =>
    match Token.radixOf? c with
    | some radix => (radix, ds)
    | none => (10, '0' :: c :: ds)
  | ds => (10, ds)

/-- The number that digits spell behind the number `high`. -/
def valueFrom? (radix : Nat) (high : Nat) : List Char → Option Nat
  | [] => some high
  | d :: ds => do
    let value ← Token.digitValue? radix d
    valueFrom? radix (high * radix + value) ds

/-- The number that digits spell; there has to be one. -/
def value? (radix : Nat) (digits : List Char) : Option Nat :=
  if digits.isEmpty then none else valueFrom? radix 0 digits

/-- The value of an integer literal. -/
def integer (text : List Char) : Except IntegerError Nat :=
  let (radix, digits) := radixAndDigits (withoutSeparators text)
  match value? radix digits with
  | none => .error .malformed
  | some value => if value < UInt64.size then .ok value else .error .tooLarge

end FrontEnd.Literal
