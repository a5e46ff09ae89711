import FrontEnd.Proofs.Literal.Rounding
import Mathlib.Data.Nat.Digits.Defs
import Mathlib.Tactic.FieldSimp

/-!
# The numbers that literals spell

What a literal means, said without reading it from left to right: digits spell a number by their
positions, the letter behind a leading zero names the radix, a point divides the digits of a float
and the letter behind them an exponent. An integer literal has a value exactly if its number is
less than `2 ^ 64` (`Literal.integer_ok_iff`), a float literal exactly if its number is less than
`Binary64.overflow` (`Literal.float_ok_iff`).

Both hold for texts of the right shape, `Literal.IsInteger` and `Literal.IsFloat`. Which numbers
literals spell is defined for every text.
-/

namespace FrontEnd

namespace Token

theorem digitValue?_of_isDigit {c : Char} (h : c.isDigit = true) :
    digitValue? 10 c = some (c.toNat - '0'.toNat) := by
  rw [Char.isDigit, Bool.and_eq_true, decide_eq_true_eq, decide_eq_true_eq] at h
  obtain ⟨hge, hle⟩ := h
  have hrange : ('0' ≤ c && c ≤ '9') = true := by
    rw [Bool.and_eq_true, decide_eq_true_eq, decide_eq_true_eq]
    exact ⟨hge, hle⟩
  have hvalue : c.toNat - '0'.toNat < 10 := by
    have : c.toNat ≤ 57 := hle
    have : '0'.toNat = 48 := rfl
    omega
  rw [digitValue?, if_pos hrange, Option.filter_some, if_pos (decide_eq_true hvalue)]

theorem isDigitIn_ten {c : Char} (h : c.isDigit = true) : isDigitIn 10 c = true := by
  rw [isDigitIn, digitValue?_of_isDigit h]
  rfl

theorem mem_of_between {lo hi d : Char} {ds : List Char} (h : (lo ≤ d && d ≤ hi) = true)
    (hall : ∀ n < hi.toNat + 1, lo.toNat ≤ n → Char.ofNat n ∈ ds) : d ∈ ds := by
  rw [Bool.and_eq_true, decide_eq_true_eq, decide_eq_true_eq] at h
  have hmem := hall d.toNat (Nat.lt_succ_of_le h.2) h.1
  rwa [Char.ofNat_toNat] at hmem

/-- The digits of all radices. -/
theorem mem_of_isDigitIn {radix : Nat} {d : Char} (h : isDigitIn radix d = true) :
    d ∈ "0123456789abcdefABCDEF".toList := by
  rw [isDigitIn, digitValue?] at h
  split at h
  · rename_i hdigit
    exact mem_of_between hdigit (by decide)
  · split at h
    · rename_i hlower
      exact mem_of_between hlower (by decide)
    · split at h
      · rename_i hupper
        exact mem_of_between hupper (by decide)
      · cases h

end Token

namespace Literal

/-! ### Digits -/

/-- The number that a digit stands for is **its place among the digits**, where a capital letter
stands at the place of the small one. -/
def digitNumber (d : Char) : Nat :=
  "0123456789abcdef".toList.idxOf d.toLower

theorem digitNumber_eq {radix v : Nat} {d : Char} (h : Token.digitValue? radix d = some v) :
    digitNumber d = v := by
  have hall : ∀ d ∈ "0123456789abcdefABCDEF".toList,
      decide (Token.digitValue? 16 d = some (digitNumber d)) = true :=
    List.all_eq_true.1 (by decide)
  have hdigit : Token.isDigitIn radix d = true := Option.isSome_of_mem h
  -- the radix only decides whether there is a value, not which one
  obtain ⟨hvalue, -⟩ := Option.filter_eq_some_iff.1 h
  obtain ⟨hnumber, -⟩ := Option.filter_eq_some_iff.1
    (of_decide_eq_true (hall d (Token.mem_of_isDigitIn hdigit)))
  exact Option.some.inj (hnumber.symm.trans hvalue)

/-- **The number that digits spell in a radix.** -/
def positional (radix : Nat) (ds : List Char) : Nat :=
  Nat.ofDigits radix (ds.reverse.map digitNumber)

theorem positional_append (radix : Nat) (ds es : List Char) :
    positional radix (ds ++ es) =
      positional radix ds * radix ^ es.length + positional radix es := by
  simp only [positional, List.reverse_append, List.map_append, Nat.ofDigits_append,
    List.length_map, List.length_reverse]
  ring

theorem positional_cons (radix : Nat) (d : Char) (ds : List Char) :
    positional radix (d :: ds) =
      digitNumber d * radix ^ ds.length + positional radix ds := by
  rw [← List.singleton_append, positional_append]
  simp [positional]

theorem valueFrom?_eq {radix : Nat} {ds : List Char}
    (hds : ∀ d ∈ ds, Token.isDigitIn radix d = true) (high : Nat) :
    valueFrom? radix high ds = some (high * radix ^ ds.length + positional radix ds) := by
  induction ds generalizing high with
  | nil => simp [valueFrom?, positional]
  | cons d ds ih =>
    obtain ⟨hd, hds⟩ := List.forall_mem_cons.1 hds
    obtain ⟨value, hvalue⟩ := Option.isSome_iff_exists.1 hd
    rw [valueFrom?, hvalue, positional_cons, digitNumber_eq hvalue, List.length_cons, pow_succ]
    refine (ih hds _).trans (congrArg some ?_)
    ring

theorem value?_eq {radix : Nat} {ds : List Char} (hne : ds ≠ [])
    (hds : ∀ d ∈ ds, Token.isDigitIn radix d = true) :
    value? radix ds = some (positional radix ds) := by
  rw [value?, if_neg (by simpa using hne), valueFrom?_eq hds, zero_mul, zero_add]

/-- Decimal digits and nothing else. -/
def IsDigits (ds : List Char) : Prop :=
  ∀ d ∈ ds, d.isDigit = true

theorem IsDigits.value?_eq {ds : List Char} (hds : IsDigits ds) (hne : ds ≠ []) :
    value? 10 ds = some (positional 10 ds) :=
  Literal.value?_eq hne fun d hd ↦ Token.isDigitIn_ten (hds d hd)

/-! ### Integers -/

/-- **The number that an integer literal spells.** -/
def numberOfInteger (text : List Char) : Nat :=
  match withoutSeparators text with
  | '0' :: 'b' :: ds => positional 2 ds
  | '0' :: 'o' :: ds => positional 8 ds
  | '0' :: 'x' :: ds => positional 16 ds
  | ds => positional 10 ds

/-- The shape of an integer literal without its underscores. -/
inductive IsInteger : List Char → Prop
  | decimal {ds : List Char} : ds ≠ [] → IsDigits ds → IsInteger ds
  | inRadix {r : Char} {radix : Nat} {ds : List Char} : Token.radixOf? r = some radix → ds ≠ [] →
    (∀ d ∈ ds, Token.isDigitIn radix d = true) → IsInteger ('0' :: r :: ds)

theorem radixOf?_of_isDigit {c : Char} (h : c.isDigit = true) : Token.radixOf? c = none := by
  rw [Token.radixOf?.eq_def]
  split
  · exact absurd h (by decide)
  · exact absurd h (by decide)
  · exact absurd h (by decide)
  · rfl

theorem radixAndDigits_of_isDigits {ds : List Char} (h : IsDigits ds) :
    radixAndDigits ds = (10, ds) := by
  rw [radixAndDigits.eq_def]
  split
  · rename_i c ds
    rw [radixOf?_of_isDigit (h c (List.mem_cons_of_mem _ List.mem_cons_self))]
  · rfl

theorem numberOfInteger_eq (text : List Char) :
    numberOfInteger text = positional (radixAndDigits (withoutSeparators text)).1
      (radixAndDigits (withoutSeparators text)).2 := by
  rw [numberOfInteger]
  split
  · rename_i ds heq
    rw [heq]
    rfl
  · rename_i ds heq
    rw [heq]
    rfl
  · rename_i ds heq
    rw [heq]
    rfl
  · rename_i hb ho hx
    rw [radixAndDigits.eq_def]
    split
    · rename_i c ds heq
      have hc : Token.radixOf? c = none := by
        rw [Token.radixOf?.eq_def]
        split
        · exact absurd heq (hb ds)
        · exact absurd heq (ho ds)
        · exact absurd heq (hx ds)
        · rfl
      rw [hc]
      dsimp only
      rw [heq]
    · rfl

theorem IsInteger.value?_radixAndDigits {ds : List Char} (h : IsInteger ds) :
    value? (radixAndDigits ds).1 (radixAndDigits ds).2 =
      some (positional (radixAndDigits ds).1 (radixAndDigits ds).2) := by
  cases h with
  | decimal hne hds =>
    rw [radixAndDigits_of_isDigits hds]
    exact hds.value?_eq hne
  | inRadix hr hne hds =>
    rw [radixAndDigits, hr]
    exact value?_eq hne hds

/-- **The value of an integer literal is its number**, if that fits in 64 bits. -/
theorem integer_eq {text : List Char} (h : IsInteger (withoutSeparators text)) :
    integer text = if numberOfInteger text < 2 ^ 64 then .ok (numberOfInteger text)
      else .error .tooLarge := by
  rw [integer, numberOfInteger_eq]
  dsimp only
  rw [h.value?_radixAndDigits]
  rfl

/-- **An integer literal has a value exactly if its number fits in 64 bits.** -/
theorem integer_ok_iff {text : List Char} (h : IsInteger (withoutSeparators text)) :
    (∃ v, integer text = .ok v) ↔ numberOfInteger text < 2 ^ 64 := by
  rw [integer_eq h]
  split
  · rename_i hlt
    exact iff_of_true ⟨_, rfl⟩ hlt
  · rename_i hge
    exact iff_of_false nofun hge

theorem valueFrom?_of_isDigits {ds : List Char} (h : IsDigits ds) (high : Nat) :
    valueFrom? 10 high ds = some (Nat.ofDigitChars 10 ds high) := by
  induction ds generalizing high with
  | nil => rfl
  | cons d ds ih =>
    obtain ⟨hd, hds⟩ := List.forall_mem_cons.1 h
    rw [valueFrom?, Token.digitValue?_of_isDigit hd, Nat.ofDigitChars_cons, Nat.mul_comm]
    exact ih hds _

theorem isDigits_toDigits (n : Nat) : IsDigits (Nat.toDigits 10 n) :=
  fun _ hd ↦ Nat.isDigit_of_mem_toDigits (by decide) (by decide) hd

/-- **The digits of a number stand for it**, if it fits in 64 bits. -/
theorem integer_toDigits {n : Nat} (h : n < UInt64.size) :
    integer (Nat.toDigits 10 n) = .ok n := by
  have hdigits := isDigits_toDigits n
  have hplain : withoutSeparators (Nat.toDigits 10 n) = Nat.toDigits 10 n := by
    refine List.filter_eq_self.2 fun d hd ↦ decide_eq_true ?_
    rintro rfl
    exact absurd (hdigits _ hd) (by decide)
  have hvalue : value? 10 (Nat.toDigits 10 n) = some n := by
    rw [value?, if_neg (by simp), valueFrom?_of_isDigits hdigits, Nat.ofDigitChars_ten_toDigits]
  rw [integer, hplain, radixAndDigits_of_isDigits hdigits]
  dsimp only
  rw [hvalue]
  exact if_pos h

/-! ### Floats -/

/-- Whether a character announces an exponent. -/
def isExponentLetter (c : Char) : Bool :=
  c == 'e' || c == 'E'

/-- The number that digits spell behind a sign, which may be left out. -/
def signedNumber : List Char → Int
  | '-' :: ds => -(positional 10 ds : Int)
  | '+' :: ds => positional 10 ds
  | ds => positional 10 ds

/-- **The number that a float literal spells.** -/
def numberOfFloat (text : List Char) : ℚ :=
  let digits := withoutSeparators text
  let significand := digits.takeWhile fun c ↦ !isExponentLetter c
  let exponent := (digits.dropWhile fun c ↦ !isExponentLetter c).tail
  let whole := significand.takeWhile (· ≠ '.')
  let fraction := (significand.dropWhile (· ≠ '.')).tail
  (positional 10 whole + positional 10 fraction / 10 ^ fraction.length) * 10 ^ signedNumber exponent

/-- Nothing, or a point and digits. -/
inductive IsFraction : List Char → Prop
  | none : IsFraction []
  | some {ds : List Char} : IsDigits ds → IsFraction ('.' :: ds)

/-- Nothing, or a letter, perhaps a sign, and digits. -/
inductive IsExponent : List Char → Prop
  | none : IsExponent []
  | some {c : Char} {sign ds : List Char} : isExponentLetter c = true →
    sign ∈ [[], ['+'], ['-']] → ds ≠ [] → IsDigits ds → IsExponent (c :: (sign ++ ds))

/-- The shape of a float literal without its underscores. An integer has it, too. -/
inductive IsFloat : List Char → Prop
  | mk {whole fraction exponent : List Char} : whole ≠ [] → IsDigits whole → IsFraction fraction →
    IsExponent exponent → IsFloat (whole ++ (fraction ++ exponent))

/-- Decimal digits have the shape of a float without point and exponent. -/
theorem IsDigits.isFloat {ds : List Char} (hds : IsDigits ds) (hne : ds ≠ []) : IsFloat ds := by
  have h := IsFloat.mk hne hds .none .none
  rwa [List.append_nil, List.append_nil] at h

/-- Where to cut a list: behind all that passes and before the first that does not. -/
theorem takeWhile_dropWhile_append {α : Type} {p : α → Bool} {l r : List α}
    (hl : ∀ c ∈ l, p c = true) (hr : ∀ c ∈ r.head?, p c = false) :
    (l ++ r).takeWhile p = l ∧ (l ++ r).dropWhile p = r := by
  rw [List.takeWhile_append_of_pos hl, List.dropWhile_append_of_pos hl]
  cases r with
  | nil => exact ⟨List.append_nil l, rfl⟩
  | cons c r =>
    have hc : ¬p c = true := Bool.eq_false_iff.1 (hr c rfl)
    rw [List.takeWhile_cons_of_neg hc, List.dropWhile_cons_of_neg hc]
    exact ⟨List.append_nil l, rfl⟩

section Parts

variable {whole fraction exponent : List Char}

theorem IsFraction.head?_eq (h : IsFraction fraction) : ∀ c ∈ fraction.head?, c = '.' := by
  cases h with
  | none => exact nofun
  | some => exact fun c hc ↦ (Option.mem_some.1 hc).symm

theorem IsFraction.isDigits_tail (h : IsFraction fraction) : IsDigits fraction.tail := by
  cases h with
  | none => exact nofun
  | some hds => exact hds

theorem IsExponent.isExponentLetter_head? (h : IsExponent exponent) :
    ∀ c ∈ exponent.head?, isExponentLetter c = true := by
  cases h with
  | none => exact nofun
  | some hc => exact fun d hd ↦ Option.mem_some.1 hd ▸ hc

theorem isDigit_of_isExponentLetter {c : Char} (h : isExponentLetter c = true) :
    c.isDigit = false := by
  rw [isExponentLetter, Bool.or_eq_true, beq_iff_eq, beq_iff_eq] at h
  rcases h with rfl | rfl <;> decide

theorem isExponentLetter_of_isDigit {c : Char} (h : c.isDigit = true) :
    isExponentLetter c = false :=
  Bool.eq_false_iff.2 fun hc ↦ Bool.false_ne_true ((isDigit_of_isExponentLetter hc).symm.trans h)

theorem IsDigits.ne_cons {ds es : List Char} {c : Char} (h : IsDigits ds)
    (hc : c.isDigit = false) : ds ≠ c :: es := by
  rintro rfl
  exact Bool.false_ne_true (hc.symm.trans (h c List.mem_cons_self))

theorem signedNumber_of_isDigits {ds : List Char} (h : IsDigits ds) :
    signedNumber ds = positional 10 ds := by
  rw [signedNumber.eq_def]
  split
  · exact absurd rfl (h.ne_cons (by decide))
  · exact absurd rfl (h.ne_cons (by decide))
  · rfl

theorem exponentPart?_of_isExponent (h : IsExponent exponent) :
    exponentPart? exponent = some (signedNumber exponent.tail) := by
  cases h with
  | none => rfl
  | @some c sign ds hc hsign hne hds =>
    rw [isExponentLetter, Bool.or_eq_true, beq_iff_eq, beq_iff_eq] at hc
    rw [exponentPart?, if_pos (by simpa using hc), List.tail_cons]
    simp only [List.mem_cons, List.not_mem_nil, or_false] at hsign
    rcases hsign with rfl | rfl | rfl
    · rw [List.nil_append, signedNumber_of_isDigits hds, exponent?.eq_def]
      split
      · exact absurd rfl (hds.ne_cons (by decide))
      · exact absurd rfl (hds.ne_cons (by decide))
      · rw [hds.value?_eq hne]
        rfl
    · exact congrArg (Option.map Int.ofNat) (hds.value?_eq hne)
    · exact congrArg (Option.map fun n ↦ -Int.ofNat n) (hds.value?_eq hne)

theorem fractionPart_append (hfraction : IsFraction fraction) (hexponent : IsExponent exponent) :
    fractionPart (fraction ++ exponent) = (fraction.tail, exponent) := by
  have hhead := hexponent.isExponentLetter_head?
  cases hfraction with
  | none =>
    rw [List.nil_append, fractionPart.eq_def]
    split
    · exact absurd (hhead _ rfl) (by decide)
    · rfl
  | @some ds hds =>
    obtain ⟨htake, hdrop⟩ :=
      takeWhile_dropWhile_append hds fun c hc ↦ isDigit_of_isExponentLetter (hhead c hc)
    exact Prod.ext htake hdrop

theorem decimal?_append (hne : whole ≠ []) (hwhole : IsDigits whole)
    (hfraction : IsFraction fraction) (hexponent : IsExponent exponent) :
    decimal? (whole ++ (fraction ++ exponent)) =
      some (positional 10 (whole ++ fraction.tail),
        signedNumber exponent.tail - fraction.tail.length) := by
  have hhead : ∀ c ∈ (fraction ++ exponent).head?, c.isDigit = false := by
    cases hfraction with
    | none => exact fun c hc ↦ isDigit_of_isExponentLetter (hexponent.isExponentLetter_head? c hc)
    | some => exact fun c hc ↦ Option.mem_some.1 hc ▸ rfl
  have hdigits : IsDigits (whole ++ fraction.tail) :=
    List.forall_mem_append.2 ⟨hwhole, hfraction.isDigits_tail⟩
  obtain ⟨htake, hdrop⟩ := takeWhile_dropWhile_append hwhole hhead
  rw [decimal?, htake, hdrop, fractionPart_append hfraction hexponent]
  dsimp only
  rw [hdigits.value?_eq (by simp [hne]), exponentPart?_of_isExponent hexponent]
  rfl

theorem numberOfFloat_append {text : List Char}
    (htext : withoutSeparators text = whole ++ (fraction ++ exponent)) (hwhole : IsDigits whole)
    (hfraction : IsFraction fraction) (hexponent : IsExponent exponent) :
    numberOfFloat text = (positional 10 (whole ++ fraction.tail) : ℚ) *
      10 ^ (signedNumber exponent.tail - fraction.tail.length) := by
  have hletter : ∀ c ∈ whole ++ fraction, (!isExponentLetter c) = true := by
    intro c hc
    rw [Bool.not_eq_true']
    rcases List.mem_append.1 hc with hc | hc
    · exact isExponentLetter_of_isDigit (hwhole c hc)
    · cases hfraction with
      | none => exact nomatch hc
      | some hds =>
        rcases List.mem_cons.1 hc with rfl | hc
        · decide
        · exact isExponentLetter_of_isDigit (hds c hc)
  have hpoint : ∀ c ∈ whole, decide (c ≠ '.') = true := fun c hc ↦
    decide_eq_true fun h ↦ absurd (h ▸ hwhole c hc) (by decide)
  obtain ⟨htake, hdrop⟩ := takeWhile_dropWhile_append hletter
    fun c hc ↦ congrArg not (hexponent.isExponentLetter_head? c hc)
  obtain ⟨htake', hdrop'⟩ := takeWhile_dropWhile_append hpoint
    fun c hc ↦ decide_eq_false (not_not.2 (hfraction.head?_eq c hc))
  rw [numberOfFloat, htext, ← List.append_assoc, htake, hdrop, htake', hdrop', positional_append,
    zpow_sub₀ (by norm_num), zpow_natCast]
  push_cast
  field_simp

end Parts

/-- A float literal of the right shape is never malformed. -/
theorem float_ne_malformed {text : List Char} (h : IsFloat (withoutSeparators text)) :
    float text ≠ .error .malformed := by
  generalize hds : withoutSeparators text = ds at h
  obtain ⟨hne, hwhole, hfraction, hexponent⟩ := h
  rw [float, hds, decimal?_append hne hwhole hfraction hexponent]
  dsimp only
  split <;> simp

/-- **A float literal has a value exactly if its number is less than the least one that rounds to
infinity.** -/
theorem float_ok_iff {text : List Char} (h : IsFloat (withoutSeparators text)) :
    (∃ v, float text = .ok v) ↔ numberOfFloat text < Binary64.overflow := by
  generalize hds : withoutSeparators text = ds at h
  obtain ⟨hne, hwhole, hfraction, hexponent⟩ := h
  rw [numberOfFloat_append hds hwhole hfraction hexponent, ← Binary64.isSome_ofDecimal?_iff, float,
    hds, decimal?_append hne hwhole hfraction hexponent]
  dsimp only
  split
  · rename_i hnone
    rw [hnone]
    exact iff_of_false nofun nofun
  · rename_i value hsome
    rw [hsome]
    exact iff_of_true ⟨value, rfl⟩ rfl

end Literal

end FrontEnd
