import FrontEnd.Token.Basic

/-!
# The shape of number literals

A number starts with a digit. Behind `0b`, `0o` or `0x` it is an integer in that radix; otherwise it
is decimal, and a point or an exponent makes it a float. Underscores may stand anywhere after the
first digit.

A scanner tells how many characters a literal takes and what it is. Cutting the text at that length
is left to its caller, so that nothing here can lose a character.
-/

namespace FrontEnd.Token

/-- What a scanner found: a kind of token, and how many characters it takes beyond those that the
scanner was started behind. -/
structure Extent where
  /-- The kind of token. -/
  kind : Kind
  /-- The number of characters. -/
  length : Nat
deriving DecidableEq, Repr

namespace Extent

/-- The same token with more characters in front. -/
def grow (n : Nat) (e : Extent) : Extent :=
  { e with length := e.length + n }

@[simp]
theorem grow_kind (n : Nat) (e : Extent) : (e.grow n).kind = e.kind :=
  rfl

@[simp]
theorem grow_length (n : Nat) (e : Extent) : (e.grow n).length = e.length + n :=
  rfl

end Extent

/-- The value of a digit in a radix up to sixteen. -/
def digitValue? (radix : Nat) (c : Char) : Option Nat :=
  let value? :=
    if '0' ≤ c && c ≤ '9' then some (c.toNat - '0'.toNat)
    else if 'a' ≤ c && c ≤ 'f' then some (c.toNat - 'a'.toNat + 10)
    else if 'A' ≤ c && c ≤ 'F' then some (c.toNat - 'A'.toNat + 10)
    else none
  value?.filter (· < radix)

/-- Whether a character is a digit in a radix up to sixteen. -/
def isDigitIn (radix : Nat) (c : Char) : Bool :=
  (digitValue? radix c).isSome

/-- The radix that a letter behind a leading zero announces. -/
def radixOf? : Char → Option Nat
  | 'b' => some 2
  | 'o' => some 8
  | 'x' => some 16
  | _ => none

/-- The digits behind a radix letter. There has to be one that is not an underscore. -/
def radixExtent (radix : Nat) (cs : List Char) : Extent :=
  let run := cs.takeWhile fun c ↦ isDigitIn radix c || c == '_'
  { kind := if run.any (isDigitIn radix) then .int else .fault .missingDigit
    length := run.length }

/-- The part of a decimal number that has been reached. -/
inductive DecimalPart where
  /-- The digits before a point. -/
  | whole
  /-- The digits after a point. -/
  | fraction
  /-- The exponent; the flag tells whether it has a digit. -/
  | exponent (hasDigit : Bool)
deriving DecidableEq, Repr

/-- What a decimal number is if it ends in a part. -/
def DecimalPart.kind : DecimalPart → Kind
  | .whole => .int
  | .fraction => .float
  | .exponent true => .float
  | .exponent false => .fault .missingDigit

/-- The part after one more digit. -/
def DecimalPart.afterDigit : DecimalPart → DecimalPart
  | .exponent _ => .exponent true
  | part => part

/-- Whether a character is the sign of an exponent. -/
def isExponentSign (c : Char) : Bool :=
  c == '+' || c == '-'

/-- The rest of a decimal number of which `part` has been reached. The flag tells whether the
exponent letter was the last character, in which case a sign may follow. -/
def decimalExtent (part : DecimalPart) (afterLetter : Bool) : List Char → Extent
  | [] => ⟨part.kind, 0⟩
  | c :: cs =>
    if c.isDigit then (decimalExtent part.afterDigit false cs).grow 1
    else if c = '_' then (decimalExtent part false cs).grow 1
    else if c = '.' then
      match part with
      | .whole => (decimalExtent .fraction false cs).grow 1
      | .fraction => ⟨.fault .secondPoint, 1⟩
      | .exponent _ => ⟨.fault .pointInExponent, 1⟩
    else if c = 'e' || c = 'E' then
      match part with
      | .exponent _ => ⟨.fault .secondExponent, 1⟩
      | _ => (decimalExtent (.exponent false) true cs).grow 1
    -- a sign belongs to the number only directly behind the exponent letter
    else if afterLetter && isExponentSign c then (decimalExtent part false cs).grow 1
    else ⟨part.kind, 0⟩

/-- The rest of a number behind its first digit `c`. -/
def numberExtent (c : Char) (cs : List Char) : Extent :=
  match c, cs with
  | '0', r :: ds =>
    match radixOf? r with
    | some radix => (radixExtent radix ds).grow 1
    | none => decimalExtent .whole false cs
  | _, _ => decimalExtent .whole false cs

end FrontEnd.Token
