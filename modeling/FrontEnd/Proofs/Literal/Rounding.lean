import FrontEnd.Literal.Float
import Mathlib.Algebra.Order.Field.Basic
import Mathlib.Data.Rat.Cast.Order
import Mathlib.Tactic.Linarith
import Mathlib.Tactic.Ring

/-!
# Which numbers have a finite double

The largest finite double is `Binary64.largest`, and the next one would be `2 ^ 1024`. Halfway
between them lies `Binary64.overflow`. What is less rounds to a finite double; what is not rounds to
infinity, the number in the middle too, since of its two neighbours the larger is the even one. That
this is what the arithmetic on bits comes to is `Binary64.isSome_ofDecimal?_iff`.
-/

namespace FrontEnd.Binary64

/-- The largest finite double. -/
def largest : ℚ :=
  (2 ^ 53 - 1) * 2 ^ 971

/-- The least number that rounds to infinity. -/
def overflow : ℚ :=
  (largest + 2 ^ 1024) / 2

theorem overflow_eq : overflow = (2 ^ 54 - 1) * 2 ^ 970 := by
  have hnext : (2 : ℚ) ^ 971 = 2 * 2 ^ 970 := pow_succ' 2 970
  have hlast : (2 : ℚ) ^ 1024 = 2 ^ 54 * 2 ^ 970 := pow_add 2 54 970
  rw [overflow, largest, hnext, hlast]
  generalize (2 : ℚ) ^ 970 = x
  ring

theorem overflow_le_two_pow : overflow ≤ 2 ^ 1024 := by
  rw [overflow_eq, show (2 : ℚ) ^ 1024 = 2 ^ 54 * 2 ^ 970 from pow_add 2 54 970]
  exact mul_le_mul_of_nonneg_right (by norm_num) (pow_pos two_pos _).le

theorem one_le_overflow : 1 ≤ overflow := by
  rw [overflow_eq]
  exact one_le_mul_of_one_le_of_one_le (by norm_num) (one_le_pow₀ one_le_two)

theorem overflow_le_ten_pow : overflow ≤ 10 ^ 310 :=
  calc overflow ≤ 2 ^ 1024 := overflow_le_two_pow
    _ ≤ 2 ^ (205 * 5) := pow_le_pow_right₀ one_le_two (by norm_num)
    _ = (2 ^ 205) ^ 5 := pow_mul 2 205 5
    _ ≤ (10 ^ 62) ^ 5 := pow_le_pow_left₀ (by norm_num) (by norm_num) 5
    _ = 10 ^ 310 := (pow_mul 10 62 5).symm

/-! ### The steps of rounding -/

theorem scaled_snd_pos {den : Nat} (hden : 0 < den) (num : Nat) (e : Int) :
    0 < (scaled num den e).2 := by
  rw [scaled]
  split
  · exact hden
  · rw [Nat.shiftLeft_eq]
    exact Nat.mul_pos hden (Nat.two_pow_pos _)

theorem scaled_div (num den : Nat) (e : Int) :
    ((scaled num den e).1 : ℚ) / (scaled num den e).2 = num / den * 2 ^ e := by
  rw [scaled]
  split
  · rename_i he
    obtain ⟨k, rfl⟩ := Int.eq_ofNat_of_zero_le he
    rw [Nat.shiftLeft_eq, Int.toNat_natCast, zpow_natCast]
    push_cast
    ring
  · rename_i he
    obtain ⟨k, hk⟩ := Int.eq_ofNat_of_zero_le (by omega : 0 ≤ -e)
    obtain rfl : e = -(k : Int) := by omega
    rw [Nat.shiftLeft_eq, neg_neg, Int.toNat_natCast, zpow_neg, zpow_natCast]
    push_cast
    rw [div_mul_eq_div_div, div_eq_mul_inv _ ((2 : ℚ) ^ k)]

/-- The exponent of a fraction brackets it between two powers of two. -/
theorem exponentOf_spec {num den : Nat} (hnum : 0 < num) (hden : 0 < den) :
    (2 : ℚ) ^ exponentOf num den ≤ num / den ∧ (num / den : ℚ) < 2 ^ (exponentOf num den + 1) := by
  have hnum' : (0 : ℚ) < num := Nat.cast_pos.2 hnum
  have hden' : (0 : ℚ) < den := Nat.cast_pos.2 hden
  have hnumle : (2 : ℚ) ^ (Nat.log2 num : Int) ≤ num := by
    rw [zpow_natCast]
    exact_mod_cast Nat.log2_self_le hnum.ne'
  have hnumlt : (num : ℚ) < 2 ^ ((Nat.log2 num : Int) + 1) := by
    rw [← Nat.cast_succ, zpow_natCast]
    exact_mod_cast Nat.lt_log2_self
  have hdenle : (2 : ℚ) ^ (Nat.log2 den : Int) ≤ den := by
    rw [zpow_natCast]
    exact_mod_cast Nat.log2_self_le hden.ne'
  have hdenlt : (den : ℚ) < 2 ^ ((Nat.log2 den : Int) + 1) := by
    rw [← Nat.cast_succ, zpow_natCast]
    exact_mod_cast Nat.lt_log2_self
  set guess : Int := (Nat.log2 num : Int) - Nat.log2 den with hguess
  have hpos : (0 : ℚ) < 2 ^ guess := zpow_pos two_pos _
  have hlt : (num / den : ℚ) < 2 ^ (guess + 1) := by
    rw [div_lt_iff₀ hden']
    calc (num : ℚ) < 2 ^ ((Nat.log2 num : Int) + 1) := hnumlt
      _ = 2 ^ (guess + 1) * 2 ^ (Nat.log2 den : Int) := by
        rw [← zpow_add₀ two_ne_zero, hguess]
        congr 1
        ring
      _ ≤ 2 ^ (guess + 1) * den := mul_le_mul_of_nonneg_left hdenle (zpow_pos two_pos _).le
  have hge : (2 : ℚ) ^ (guess - 1) ≤ num / den := by
    rw [le_div_iff₀ hden']
    calc (2 : ℚ) ^ (guess - 1) * den ≤ 2 ^ (guess - 1) * 2 ^ ((Nat.log2 den : Int) + 1) :=
        mul_le_mul_of_nonneg_left hdenlt.le (zpow_pos two_pos _).le
      _ = 2 ^ (Nat.log2 num : Int) := by
        rw [← zpow_add₀ two_ne_zero, hguess]
        congr 1
        ring
      _ ≤ num := hnumle
  -- one comparison tells whether the guess is one too large
  have hcompare : (scaled num den (-guess)).2 ≤ (scaled num den (-guess)).1 ↔
      (2 : ℚ) ^ guess ≤ num / den := by
    have hd : (0 : ℚ) < (scaled num den (-guess)).2 := Nat.cast_pos.2 (scaled_snd_pos hden num _)
    rw [← Nat.cast_le (α := ℚ), ← one_le_div hd, scaled_div, zpow_neg, ← div_eq_mul_inv,
      one_le_div hpos]
  rw [exponentOf]
  dsimp only
  rw [← hguess]
  split
  · rename_i h
    exact ⟨hcompare.1 h, hlt⟩
  · rename_i h
    rw [sub_add_cancel]
    exact ⟨hge, not_le.1 (mt hcompare.2 h)⟩

theorem le_roundedQuotient (n d : Nat) : n / d ≤ roundedQuotient n d := by
  rw [roundedQuotient]
  split <;> omega

theorem roundedQuotient_le (n d : Nat) : roundedQuotient n d ≤ n / d + 1 := by
  rw [roundedQuotient]
  split <;> omega

/-- A quotient rounds to less than an even number if it is by more than one half less. -/
theorem roundedQuotient_lt_iff {n d k : Nat} (hd : 0 < d) (hk : k % 2 = 0) (hpos : 0 < k) :
    roundedQuotient n d < k ↔ 2 * n + d < 2 * k * d := by
  have hn : n = d * (n / d) + n % d := (Nat.div_add_mod n d).symm
  have hr : n % d < d := Nat.mod_lt n hd
  have hle := le_roundedQuotient n d
  have hge := roundedQuotient_le n d
  rcases Nat.lt_trichotomy (n / d + 1) k with h | h | h
  · refine ⟨fun _ ↦ ?_, fun _ ↦ by omega⟩
    have hmul : d * (n / d + 2) ≤ d * k := Nat.mul_le_mul_left d h
    have hleft : d * (n / d + 2) = d * (n / d) + 2 * d := by ring
    have hright : 2 * k * d = 2 * (d * k) := by ring
    omega
  · -- the quotient is odd, so a tie rounds up
    subst h
    rw [roundedQuotient]
    have hodd : n / d % 2 = 1 := by omega
    have htwo : 2 * (n / d + 1) * d = 2 * (d * (n / d)) + 2 * d := by ring
    rw [htwo]
    generalize d * (n / d) = x at hn ⊢
    simp only [hodd, beq_self_eq_true, Bool.and_true]
    split
    · rename_i hup
      simp only [Bool.or_eq_true, decide_eq_true_eq, beq_iff_eq] at hup
      omega
    · rename_i hdown
      simp only [Bool.or_eq_true, decide_eq_true_eq, beq_iff_eq] at hdown
      omega
  · refine ⟨fun _ ↦ by omega, fun hlt ↦ ?_⟩
    have hmul : d * k ≤ d * (n / d) := Nat.mul_le_mul_left d (by omega)
    have hright : 2 * k * d = 2 * (d * k) := by ring
    omega

/-! ### Overflow -/

/-- Scaled to units of the last place, a fraction with exponent `e` has at most 53 bits. -/
theorem scaled_lt {num den : Nat} {e : Int} (hden : 0 < den) (h : (num / den : ℚ) < 2 ^ (e + 1)) :
    (scaled num den (52 - e)).1 / (scaled num den (52 - e)).2 < 2 ^ 53 := by
  have hd := scaled_snd_pos hden num (52 - e)
  rw [Nat.div_lt_iff_lt_mul hd, ← Nat.cast_lt (α := ℚ), Nat.cast_mul,
    ← div_lt_iff₀ (Nat.cast_pos.2 hd), scaled_div]
  calc (num / den : ℚ) * 2 ^ (52 - e) < 2 ^ (e + 1) * 2 ^ (52 - e) :=
        mul_lt_mul_of_pos_right h (zpow_pos two_pos _)
    _ = 2 ^ (53 : Int) := by
        rw [← zpow_add₀ two_ne_zero]
        congr 1
        ring
    _ = ((2 ^ 53 : Nat) : ℚ) := by norm_num

/-- Scaled to units of the last place, a normal fraction with exponent `e` has at least 53 bits. -/
theorem le_scaled {num den : Nat} {e : Int} (hden : 0 < den) (h : (2 : ℚ) ^ e ≤ num / den) :
    2 ^ 52 ≤ (scaled num den (52 - e)).1 / (scaled num den (52 - e)).2 := by
  have hd := scaled_snd_pos hden num (52 - e)
  rw [Nat.le_div_iff_mul_le hd, ← Nat.cast_le (α := ℚ), Nat.cast_mul,
    ← le_div_iff₀ (Nat.cast_pos.2 hd), scaled_div]
  calc ((2 ^ 52 : Nat) : ℚ) = 2 ^ (52 : Int) := by norm_num
    _ = 2 ^ e * 2 ^ (52 - e) := by
        rw [← zpow_add₀ two_ne_zero]
        congr 1
        ring
    _ ≤ (num / den : ℚ) * 2 ^ (52 - e) := mul_le_mul_of_nonneg_right h (zpow_pos two_pos _).le

/-- In the last binade, rounding stays below the next one exactly for fractions that are less than
`overflow`. -/
theorem roundedQuotient_scaled_lt_iff {num den : Nat} (hden : 0 < den) :
    roundedQuotient (scaled num den (52 - 1023)).1 (scaled num den (52 - 1023)).2 < 2 ^ 53 ↔
      (num / den : ℚ) < overflow := by
  have hd := scaled_snd_pos hden num (52 - 1023)
  have hdiv := scaled_div num den (52 - 1023)
  generalize (scaled num den (52 - 1023)).1 = n at hdiv ⊢
  generalize (scaled num den (52 - 1023)).2 = d at hd hdiv ⊢
  have hd' : (0 : ℚ) < d := Nat.cast_pos.2 hd
  have hpow : (2 : ℚ) ^ (52 - 1023 : Int) = 2⁻¹ * (2 ^ 970)⁻¹ := by
    rw [← mul_inv, ← pow_succ', ← zpow_natCast, ← zpow_neg]
    norm_num
  calc roundedQuotient n d < 2 ^ 53
      ↔ 2 * n + d < 2 * 2 ^ 53 * d := roundedQuotient_lt_iff hd (by norm_num) (by norm_num)
    _ ↔ 2 * (n : ℚ) + d < 2 * 2 ^ 53 * d := by exact_mod_cast Iff.rfl
    _ ↔ 2 * ((n : ℚ) / d) < 2 ^ 54 - 1 := by
        rw [← mul_div_assoc, div_lt_iff₀ hd', sub_mul, one_mul, lt_sub_iff_add_lt]
        norm_num
    _ ↔ (num / den : ℚ) < overflow := by
        rw [hdiv, hpow, overflow_eq, ← div_lt_iff₀ (pow_pos two_pos 970)]
        rw [show 2 * ((num / den : ℚ) * (2⁻¹ * (2 ^ 970)⁻¹)) = num / den / 2 ^ 970 by
          rw [mul_left_comm, ← mul_assoc 2, mul_inv_cancel₀ two_ne_zero, one_mul, ← div_eq_mul_inv]]

/-- The bits of a fraction are those of a finite double if it is less than `overflow`. -/
theorem bitsOfFraction_lt_iff {num den : Nat} (hnum : 0 < num) (hden : 0 < den) :
    bitsOfFraction num den < infinityBits ↔ (num / den : ℚ) < overflow := by
  obtain ⟨hge, hlt⟩ := exponentOf_spec hnum hden
  rw [bitsOfFraction]
  dsimp only
  generalize exponentOf num den = e at hge hlt ⊢
  rw [Nat.shiftLeft_eq, minExponent, infinityBits]
  rcases lt_trichotomy e 1023 with h | rfl | h
  · -- below the last binade even a carry stays finite
    set k := max e (-1022) with hk
    have hround := roundedQuotient_le (scaled num den (52 - k)).1 (scaled num den (52 - k)).2
    have hsmall := scaled_lt hden
      (hlt.trans_le (zpow_le_zpow_right₀ one_le_two (by omega : e + 1 ≤ k + 1)))
    refine iff_of_true (by omega) (hlt.trans_le ?_)
    calc (2 : ℚ) ^ (e + 1) ≤ 2 ^ (1023 : Int) := zpow_le_zpow_right₀ one_le_two (by omega)
      _ = 2 ^ 53 * 2 ^ 970 := by rw [← pow_add]; rfl
      _ ≤ overflow := by
        rw [overflow_eq]
        exact mul_le_mul_of_nonneg_right (by norm_num) (pow_pos two_pos _).le
  · rw [← roundedQuotient_scaled_lt_iff hden, show max (1023 : Int) (-1022) = 1023 from rfl]
    omega
  · rw [max_eq_left (by omega)]
    have hround := le_roundedQuotient (scaled num den (52 - e)).1 (scaled num den (52 - e)).2
    have hlarge := le_scaled hden hge
    refine iff_of_false (by omega) (not_lt.2 ?_)
    calc overflow ≤ 2 ^ 1024 := overflow_le_two_pow
      _ = 2 ^ (1024 : Int) := rfl
      _ ≤ 2 ^ e := zpow_le_zpow_right₀ one_le_two (by omega)
      _ ≤ num / den := hge

/-- The number of its digits brackets a number between two powers of ten. -/
theorem toDigits_bounds {m : Nat} (hm : 0 < m) :
    10 ^ ((Nat.toDigits 10 m).length - 1) ≤ m ∧ m < 10 ^ (Nat.toDigits 10 m).length := by
  have hpos : 0 < (Nat.toDigits 10 m).length := Nat.length_toDigits_pos
  refine ⟨?_, (Nat.length_toDigits_le_iff (by norm_num) hpos).1 le_rfl⟩
  rcases Nat.eq_zero_or_pos ((Nat.toDigits 10 m).length - 1) with h | h
  · rw [h]
    exact hm
  · exact not_lt.1 (mt (Nat.length_toDigits_le_iff (by norm_num) h).2 (by omega))

/-- A decimal number as a fraction, with its power of ten above or below the line. -/
theorem bitsOfDecimal_lt_iff {m : Nat} (hm : 0 < m) (e : Int) :
    (if 0 ≤ e then bitsOfFraction (m * Nat.pow 10 e.toNat) 1
      else bitsOfFraction m (Nat.pow 10 (-e).toNat)) < infinityBits ↔
      (m : ℚ) * 10 ^ e < overflow := by
  split
  · rename_i he
    obtain ⟨k, rfl⟩ := Int.eq_ofNat_of_zero_le he
    rw [Nat.pow_eq, bitsOfFraction_lt_iff (Nat.mul_pos hm (Nat.pow_pos (by norm_num))) Nat.one_pos,
      Int.toNat_natCast, zpow_natCast, Nat.cast_one, div_one]
    push_cast
    rfl
  · rename_i he
    obtain ⟨k, hk⟩ := Int.eq_ofNat_of_zero_le (by omega : 0 ≤ -e)
    obtain rfl : e = -(k : Int) := by omega
    rw [Nat.pow_eq, bitsOfFraction_lt_iff hm (Nat.pow_pos (by norm_num)), neg_neg,
      Int.toNat_natCast, zpow_neg, zpow_natCast, div_eq_mul_inv]
    push_cast
    rfl

/-- **A decimal number has a nearest finite double exactly if it is less than `overflow`.** -/
theorem isSome_ofDecimal?_iff (m : Nat) (e : Int) :
    (ofDecimal? m e).isSome ↔ (m : ℚ) * 10 ^ e < overflow := by
  rcases Nat.eq_zero_or_pos m with rfl | hm
  · simp [ofDecimal?, zero_lt_one.trans_le one_le_overflow]
  obtain ⟨hge, hlt⟩ := toDigits_bounds hm
  have hpos : 0 < (Nat.toDigits 10 m).length := Nat.length_toDigits_pos
  have hdecimal := bitsOfDecimal_lt_iff hm e
  rw [ofDecimal?]
  dsimp only
  generalize (Nat.toDigits 10 m).length = s at hge hlt hpos ⊢
  generalize (if 0 ≤ e then _ else _) = bits at hdecimal ⊢
  split_ifs with hsmall hlarge hbits
  · have hsize : (s : Int) + e ≤ 0 := by omega
    refine iff_of_true rfl ?_
    calc (m : ℚ) * 10 ^ e < 10 ^ s * 10 ^ e :=
          mul_lt_mul_of_pos_right (by exact_mod_cast hlt) (zpow_pos (by norm_num) _)
      _ = 10 ^ ((s : Int) + e) := by rw [zpow_add₀ (by norm_num), zpow_natCast]
      _ ≤ 10 ^ (0 : Int) := zpow_le_zpow_right₀ (by norm_num) hsize
      _ ≤ overflow := one_le_overflow
  · refine iff_of_false (by simp) (not_lt.2 ?_)
    calc overflow ≤ 10 ^ (310 : Int) := overflow_le_ten_pow
      _ ≤ 10 ^ (((s - 1 : Nat) : Int) + e) := zpow_le_zpow_right₀ (by norm_num) (by omega)
      _ = 10 ^ (s - 1) * 10 ^ e := by rw [zpow_add₀ (by norm_num), zpow_natCast]
      _ ≤ m * 10 ^ e :=
          mul_le_mul_of_nonneg_right (by exact_mod_cast hge) (zpow_pos (by norm_num) _).le
  · exact iff_of_true rfl (hdecimal.1 hbits)
  · exact iff_of_false (by simp) (mt hdecimal.2 hbits)

end FrontEnd.Binary64
