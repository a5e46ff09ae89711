import FrontEnd.Literal.Binary64
import FrontEnd.Literal.Integer

/-!
# The value of float literals

A float literal is digits, perhaps a point and more digits, and perhaps an exponent. It stands for
the double nearest to the number it spells, which has to be finite.
-/

namespace FrontEnd.Literal

/-- Why a float literal has no value. -/
inductive FloatError where
  /-- The nearest double is not finite. -/
  | outOfRange
  /-- The text does not spell a decimal number. -/
  | malformed
deriving DecidableEq, Repr

/-- The number that an exponent behind its letter spells. -/
def exponent? : List Char → Option Int
  | '+' :: ds => (value? 10 ds).map Int.ofNat
  | '-' :: ds => (value? 10 ds).map fun n ↦ -Int.ofNat n
  | ds => (value? 10 ds).map Int.ofNat

/-- What stands behind the digits of a decimal number: nothing, or an exponent. -/
def exponentPart? : List Char → Option Int
  | [] => some 0
  | c :: ds => if c = 'e' || c = 'E' then exponent? ds else none

/-- The digits after the point, if there is one, and what stands behind them. -/
def fractionPart : List Char → List Char × List Char
  | '.' :: ds => (ds.takeWhile Char.isDigit, ds.dropWhile Char.isDigit)
  | ds => ([], ds)

/-- The decimal number `m · 10 ^ e` that a text spells, as the pair of `m` and `e`. -/
def decimal? (text : List Char) : Option (Nat × Int) := do
  let whole := text.takeWhile Char.isDigit
  let (fraction, rest) := fractionPart (text.dropWhile Char.isDigit)
  let m ← value? 10 (whole ++ fraction)
  let e ← exponentPart? rest
  -- every digit after the point has been read as if it stood before it
  return (m, e - fraction.length)

/-- The value of a float literal. -/
def float (text : List Char) : Except FloatError Binary64 :=
  match decimal? (withoutSeparators text) with
  | none => .error .malformed
  | some (m, e) =>
    match Binary64.ofDecimal? m e with
    | none => .error .outOfRange
    | some value => .ok value

end FrontEnd.Literal
