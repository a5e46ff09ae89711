/-!
# Decimal numbers as doubles

The double nearest to a decimal number, worked out in exact arithmetic. A number `m · 10 ^ e` is a
fraction; the double's exponent is read off the fraction's size, and its significand is the fraction
in units of the last place, rounded to nearest with ties to even. Reading exponent and significand
as one number takes care of the carry, of subnormal numbers and of overflow alike.

Two comparisons up front keep the powers of ten small: what lies beyond `10 ^ 310` overflows, and
what lies below `10 ^ -330` rounds to zero.
-/

namespace FrontEnd

/-- A double, as its bits. -/
structure Binary64 where
  /-- Sign, exponent and significand in the interchange format. -/
  bits : UInt64
deriving DecidableEq, Repr, Inhabited

namespace Binary64

/-- The quotient of two numbers rounded to nearest, ties to even. -/
def roundedQuotient (num den : Nat) : Nat :=
  let q := num / den
  let r := num % den
  if den < 2 * r || (2 * r == den && q % 2 == 1) then q + 1 else q

/-- The fraction `num / den` times `2 ^ e`. -/
def scaled (num den : Nat) (e : Int) : Nat × Nat :=
  if 0 ≤ e then (num <<< e.toNat, den) else (num, den <<< (-e).toNat)

/-- The greatest `e` with `2 ^ e ≤ num / den`, for positive `num` and `den`. -/
def exponentOf (num den : Nat) : Int :=
  let guess : Int := (Nat.log2 num : Int) - Nat.log2 den
  let (n, d) := scaled num den (-guess)
  if d ≤ n then guess else guess - 1

/-- The least exponent of a normal double. -/
def minExponent : Int :=
  -1022

/-- The bits of infinity: the first ones that are no finite double. -/
def infinityBits : Nat :=
  0x7FF0000000000000

/-- The bits of the double nearest to the positive fraction `num / den`, past the largest finite one
if it overflows. -/
def bitsOfFraction (num den : Nat) : Nat :=
  let e := max (exponentOf num den) minExponent
  let (n, d) := scaled num den (52 - e)
  -- the significand is added and not masked in: its leading bit, or a carry, counts up the exponent
  (e - minExponent).toNat <<< 52 + roundedQuotient n d

/-- The double nearest to `m · 10 ^ e`; `none` if it is not finite. -/
def ofDecimal? (m : Nat) (e : Int) : Option Binary64 :=
  let size : Int := (Nat.toDigits 10 m).length + e
  if m = 0 ∨ size < -330 then some ⟨0⟩
  else if 310 < size then none
  else
    let bits :=
      if 0 ≤ e then bitsOfFraction (m * Nat.pow 10 e.toNat) 1
      else bitsOfFraction m (Nat.pow 10 (-e).toNat)
    if bits < infinityBits then some ⟨bits.toUInt64⟩ else none

end Binary64

end FrontEnd
