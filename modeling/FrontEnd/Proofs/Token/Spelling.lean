import FrontEnd.Proofs.Grammar.Rules
import FrontEnd.Proofs.Literal.Numbers
import FrontEnd.Token.Scan

/-!
# How scanned tokens are spelled

A scanner tells the kind of a token and how far it reaches, and a literal is read again later for
its value. The two agree: the text that a scanner gives to a literal has the shape that reading it
asks for (`Token.WellSpelled`), so a scanned literal is never malformed. All that can be wrong with
it is that its number is too large, and `Token.hasValue_iff` says when.

A decimal number is scanned by a machine with three states. What may follow in each of them is
`Token.DecimalPart.Continues`, which every step of the machine keeps.
-/

namespace FrontEnd

open Literal

theorem Literal.withoutSeparators_cons {c : Char} (hc : c ≠ '_') (cs : List Char) :
    withoutSeparators (c :: cs) = c :: withoutSeparators cs :=
  List.filter_cons_of_pos (decide_eq_true hc)

theorem Literal.IsDigits.cons {c : Char} {ds : List Char} (hc : c.isDigit = true)
    (hds : IsDigits ds) : IsDigits (c :: ds) :=
  List.forall_mem_cons.2 ⟨hc, hds⟩

theorem Token.ne_underscore_of_isDigit {c : Char} (hc : c.isDigit = true) : c ≠ '_' := by
  rintro rfl
  exact absurd hc (by decide)

/-- One character between quotes stands for itself. -/
theorem Literal.rune?_plain {c : Char} (hc : c ≠ '\\') : rune? ['\'', c, '\''] = some c := by
  have hinside : unquoted? '\'' ['\'', c, '\''] = some [c] := rfl
  rw [rune?, hinside]
  split
  · rename_i heq
    exact nomatch heq
  · rename_i heq
    exact nomatch heq
  · rename_i heq
    exact nomatch heq
  · rename_i heq
    exact absurd (List.head_eq_of_cons_eq (Option.some.inj heq)) hc
  · rename_i heq
    exact congrArg some (List.head_eq_of_cons_eq (Option.some.inj heq)).symm

namespace Token

/-- A text has the shape that a kind of token asks for. The end mark has no text. -/
def Kind.Spells (text : List Char) : Kind → Prop
  | .int => IsInteger (withoutSeparators text)
  | .float => IsFloat (withoutSeparators text)
  | .rune => (rune? text).isSome
  | .finish => False
  | _ => True

/-! ### Decimal numbers -/

/-- What may follow where a part of a decimal number has been reached, underscores left out, for
the number to be of a kind. -/
def DecimalPart.Continues (afterLetter : Bool) (k : Kind) (ds : List Char) : DecimalPart → Prop
  | .whole =>
    k = .int ∧ IsDigits ds ∨
    k = .float ∧ ∃ whole fraction exponent, ds = whole ++ (fraction ++ exponent) ∧
      IsDigits whole ∧ IsFraction fraction ∧ IsExponent exponent
  | .fraction =>
    k = .float ∧ ∃ digits exponent, ds = digits ++ exponent ∧ IsDigits digits ∧ IsExponent exponent
  | .exponent hasDigit =>
    k = .float ∧ ∃ sign digits, ds = sign ++ digits ∧ IsDigits digits ∧
      (hasDigit = false → digits ≠ []) ∧
      (sign = [] ∨ afterLetter = true ∧ sign ∈ [[], ['+'], ['-']])

namespace DecimalPart

variable {part : DecimalPart} {afterLetter : Bool} {k : Kind} {c : Char} {ds : List Char}

/-- A number may end in a part whose kind is no fault. -/
theorem continues_nil (h : part.kind.isFault = false) :
    part.Continues afterLetter part.kind [] := by
  cases part with
  | whole => exact .inl ⟨rfl, nofun⟩
  | fraction => exact ⟨rfl, [], [], rfl, nofun, .none⟩
  | exponent hasDigit =>
    cases hasDigit with
    | false => exact nomatch h
    | true => exact ⟨rfl, [], [], rfl, nofun, nofun, .inl rfl⟩

/-- A digit goes on in every part, and lets the part end. -/
theorem Continues.digit (hc : c.isDigit = true) (h : part.afterDigit.Continues false k ds) :
    part.Continues afterLetter k (c :: ds) := by
  cases part with
  | whole =>
    rcases h with ⟨hk, hds⟩ | ⟨hk, whole, fraction, exponent, rfl, hwhole, hfraction, hexponent⟩
    · exact .inl ⟨hk, hds.cons hc⟩
    · exact .inr ⟨hk, c :: whole, fraction, exponent, rfl, hwhole.cons hc, hfraction, hexponent⟩
  | fraction =>
    obtain ⟨hk, digits, exponent, rfl, hdigits, hexponent⟩ := h
    exact ⟨hk, c :: digits, exponent, rfl, hdigits.cons hc, hexponent⟩
  | exponent hasDigit =>
    obtain ⟨hk, sign, digits, rfl, hdigits, -, hsign⟩ := h
    obtain rfl : sign = [] := hsign.elim id fun h ↦ nomatch h.1
    exact ⟨hk, [], c :: digits, rfl, hdigits.cons hc, nofun, .inl rfl⟩

/-- A separator is left out; behind it a sign cannot come any more. -/
theorem Continues.skip (h : part.Continues false k ds) : part.Continues afterLetter k ds := by
  cases part with
  | whole => exact h
  | fraction => exact h
  | exponent hasDigit =>
    obtain ⟨hk, sign, digits, hds, hdigits, hne, hsign⟩ := h
    exact ⟨hk, sign, digits, hds, hdigits, hne, .inl (hsign.elim id fun h ↦ nomatch h.1)⟩

/-- The point comes once, behind the whole part. -/
theorem Continues.point (h : fraction.Continues false k ds) :
    whole.Continues afterLetter k ('.' :: ds) := by
  obtain ⟨hk, digits, exponent, rfl, hdigits, hexponent⟩ := h
  exact .inr ⟨hk, [], '.' :: digits, exponent, rfl, nofun, .some hdigits, hexponent⟩

/-- The letter of an exponent comes once, and a sign only right behind it. -/
theorem Continues.letter (hpart : ∀ b, part ≠ exponent b) (hc : isExponentLetter c = true)
    (h : (exponent false).Continues true k ds) : part.Continues afterLetter k (c :: ds) := by
  obtain ⟨hk, sign, digits, rfl, hdigits, hne, hsign⟩ := h
  have hexponent : IsExponent (c :: (sign ++ digits)) := by
    refine .some hc ?_ (hne rfl) hdigits
    rcases hsign with rfl | ⟨-, hsign⟩
    · exact List.mem_cons_self
    · exact hsign
  cases part with
  | whole => exact .inr ⟨hk, [], [], _, rfl, nofun, .none, hexponent⟩
  | fraction => exact ⟨hk, [], _, rfl, nofun, hexponent⟩
  | exponent b => exact absurd rfl (hpart b)

theorem Continues.sign {b : Bool} (hc : isExponentSign c = true)
    (h : (exponent b).Continues false k ds) : (exponent b).Continues true k (c :: ds) := by
  obtain ⟨hk, sign, digits, rfl, hdigits, hne, hsign⟩ := h
  obtain rfl : sign = [] := hsign.elim id fun h ↦ nomatch h.1
  refine ⟨hk, [c], digits, rfl, hdigits, hne, .inr ⟨rfl, ?_⟩⟩
  rw [isExponentSign, Bool.or_eq_true, beq_iff_eq, beq_iff_eq] at hc
  rcases hc with rfl | rfl <;> decide

end DecimalPart

/-- **What a decimal number is scanned as, it is spelled as.** -/
theorem continues_decimalExtent {part : DecimalPart} {afterLetter : Bool} {cs : List Char}
    (hletter : afterLetter = true → ∃ b, part = .exponent b)
    (h : (decimalExtent part afterLetter cs).kind.isFault = false) :
    part.Continues afterLetter (decimalExtent part afterLetter cs).kind
      (withoutSeparators (cs.take (decimalExtent part afterLetter cs).length)) := by
  fun_induction decimalExtent part afterLetter cs with
  | case1 part afterLetter => exact DecimalPart.continues_nil h
  | case2 part afterLetter c cs hc ih =>
    rw [Extent.grow_kind, Extent.grow_length, List.take_succ_cons,
      withoutSeparators_cons (ne_underscore_of_isDigit hc)]
    exact .digit hc (ih nofun h)
  | case3 part afterLetter cs _ ih => exact .skip (ih nofun h)
  | case4 afterLetter cs _ _ ih =>
    rw [Extent.grow_kind, Extent.grow_length, List.take_succ_cons,
      withoutSeparators_cons (by decide)]
    exact .point (ih nofun h)
  | case5 => exact nomatch h
  | case6 => exact nomatch h
  | case7 => exact nomatch h
  | case8 afterLetter c cs _ hne _ hc part hpart ih =>
    rw [Extent.grow_kind, Extent.grow_length, List.take_succ_cons, withoutSeparators_cons hne]
    exact .letter hpart (by simpa [isExponentLetter] using hc) (ih (fun _ ↦ ⟨_, rfl⟩) h)
  | case9 part afterLetter c cs _ hne _ _ hsign ih =>
    obtain ⟨rfl, hc⟩ := Bool.and_eq_true_iff.1 hsign
    obtain ⟨b, rfl⟩ := hletter rfl
    rw [Extent.grow_kind, Extent.grow_length, List.take_succ_cons, withoutSeparators_cons hne]
    exact .sign hc (ih nofun h)
  | case10 part afterLetter => exact DecimalPart.continues_nil h

/-! ### Numbers in a radix -/

theorem isDigitIn_ne_underscore {radix : Nat} {c : Char} (h : isDigitIn radix c = true) :
    c ≠ '_' := by
  rintro rfl
  exact nomatch h

theorem radixOf?_ne_underscore {r : Char} {radix : Nat} (h : radixOf? r = some radix) :
    r ≠ '_' := by
  rintro rfl
  exact nomatch h

/-- Behind a radix letter stand digits, if it is no fault. -/
theorem digits_radixExtent {radix : Nat} {cs : List Char}
    (h : (radixExtent radix cs).kind.isFault = false) :
    (radixExtent radix cs).kind = .int ∧
      withoutSeparators (cs.take (radixExtent radix cs).length) ≠ [] ∧
      ∀ d ∈ withoutSeparators (cs.take (radixExtent radix cs).length),
        isDigitIn radix d = true := by
  rw [radixExtent] at h ⊢
  dsimp only at h ⊢
  rw [← List.prefix_iff_eq_take.1 (List.takeWhile_prefix _)]
  split at h
  · rename_i hany
    rw [if_pos hany]
    obtain ⟨d, hd, hdigit⟩ := List.any_eq_true.1 hany
    refine ⟨rfl, List.ne_nil_of_mem (List.mem_filter.2
      ⟨hd, decide_eq_true (isDigitIn_ne_underscore hdigit)⟩), fun c hc ↦ ?_⟩
    obtain ⟨hmem, hne⟩ := List.mem_filter.1 hc
    have hrun := List.all_eq_true.1 List.all_takeWhile c hmem
    rw [Bool.or_eq_true, beq_iff_eq] at hrun
    exact hrun.resolve_right (of_decide_eq_true hne)
  · exact nomatch h

/-! ### The scanners -/

/-- A fault may be spelled as it likes. -/
theorem Kind.spells_of_isFault {k : Kind} (h : k.isFault = true) (text : List Char) :
    k.Spells text := by
  cases k with
  | fault f => trivial
  | _ => exact nomatch h

/-- **The shape of a decimal number**: an integer is digits, and a float is spelled as one. -/
theorem shape_decimalExtent {c : Char} (hc : c.isDigit = true) {cs : List Char}
    (h : (decimalExtent .whole false cs).kind.isFault = false) :
    let text := withoutSeparators (c :: cs.take (decimalExtent .whole false cs).length)
    (decimalExtent .whole false cs).kind = .int ∧ IsDigits text ∨
      (decimalExtent .whole false cs).kind = .float ∧ IsFloat text := by
  have hparts : DecimalPart.whole.Continues false _ _ :=
    continues_decimalExtent (fun hfalse ↦ absurd hfalse Bool.false_ne_true) h
  rw [withoutSeparators_cons (ne_underscore_of_isDigit hc)]
  rcases hparts with
    ⟨hk, hds⟩ | ⟨hk, whole, fraction, exponent, hds, hwhole, hfraction, hexponent⟩
  · exact .inl ⟨hk, hds.cons hc⟩
  · rw [hds, ← List.cons_append]
    exact .inr ⟨hk, .mk (List.cons_ne_nil _ _) (hwhole.cons hc) hfraction hexponent⟩

theorem withoutSeparators_ne_nil {c : Char} (hc : c.isDigit = true) (cs : List Char) :
    withoutSeparators (c :: cs) ≠ [] := by
  rw [withoutSeparators_cons (ne_underscore_of_isDigit hc)]
  exact List.cons_ne_nil _ _

/-- **A decimal number is spelled as its kind says**, separators left out. -/
theorem spells_decimalExtent {c : Char} (hc : c.isDigit = true) (cs : List Char) :
    (decimalExtent .whole false cs).kind.Spells
      (c :: cs.take (decimalExtent .whole false cs).length) := by
  cases hfault : (decimalExtent .whole false cs).kind.isFault with
  | true => exact Kind.spells_of_isFault hfault _
  | false =>
    rcases shape_decimalExtent hc hfault with ⟨hk, hdigits⟩ | ⟨hk, hfloat⟩
    · rw [hk]
      exact .decimal (withoutSeparators_ne_nil hc _) hdigits
    · rw [hk]
      exact hfloat

/-- So is a number in any radix. -/
theorem spells_numberExtent {c : Char} (hc : c.isDigit = true) (cs : List Char) :
    (numberExtent c cs).kind.Spells (c :: cs.take (numberExtent c cs).length) := by
  rw [numberExtent.eq_def]
  split
  · rename_i r ds
    split
    · rename_i radix hr
      rw [Extent.grow_kind, Extent.grow_length, List.take_succ_cons]
      cases hfault : (radixExtent radix ds).kind.isFault with
      | true => exact Kind.spells_of_isFault hfault _
      | false =>
        obtain ⟨hk, hne, hdigits⟩ := digits_radixExtent hfault
        rw [hk, Kind.Spells, withoutSeparators_cons (by decide),
          withoutSeparators_cons (radixOf?_ne_underscore hr)]
        exact .inRadix hr hne hdigits
    · exact spells_decimalExtent hc _
  · exact spells_decimalExtent hc cs

/-- A closing quote behind one character or one escape. -/
theorem runeCloseExtent_cases (cs : List Char) :
    (runeCloseExtent cs).kind.isFault = true ∨
      ∃ ds, cs = '\'' :: ds ∧ runeCloseExtent cs = ⟨.rune, 1⟩ := by
  fun_cases runeCloseExtent cs with
  | case1 => exact .inl rfl
  | case2 ds => exact .inr ⟨ds, rfl, rfl⟩
  | case3 => exact .inl rfl

/-- What begins like a rune is one or is a fault. -/
theorem kind_runeExtent (cs : List Char) :
    (runeExtent cs).kind = .rune ∨ (runeExtent cs).kind.isFault = true := by
  have hclose (cs : List Char) :
      (runeCloseExtent cs).kind = .rune ∨ (runeCloseExtent cs).kind.isFault = true := by
    rcases runeCloseExtent_cases cs with hfault | ⟨ds, -, heq⟩
    · exact .inr hfault
    · exact .inl (congrArg Extent.kind heq)
  fun_cases runeExtent cs with
  | case4 => exact hclose _
  | case6 => exact hclose _
  | _ => exact .inr rfl

/-- What begins like a string is one or is a fault. -/
theorem kind_stringExtent (cs : List Char) :
    (stringExtent cs).kind = .string ∨ (stringExtent cs).kind.isFault = true := by
  fun_induction stringExtent cs with
  | case3 => exact .inl rfl
  | case5 _ _ _ ih => exact ih
  | case7 _ _ _ _ _ _ ih => exact ih
  | _ => exact .inr rfl

/-- A rune that is no fault has a value, which is what its kind asks for. -/
theorem spells_runeExtent (cs : List Char) :
    (runeExtent cs).kind.Spells ('\'' :: cs.take (runeExtent cs).length) := by
  fun_cases runeExtent cs with
  | case1 => trivial
  | case2 => trivial
  | case3 => trivial
  | case4 code cs hcode =>
    rcases runeCloseExtent_cases cs with hfault | ⟨ds, rfl, heq⟩
    · exact Kind.spells_of_isFault hfault _
    · rw [heq]
      exact hcode
  | case5 => trivial
  | case6 c cs _ hend hescape =>
    rcases runeCloseExtent_cases cs with hfault | ⟨ds, rfl, heq⟩
    · exact Kind.spells_of_isFault hfault _
    · have hc : c ≠ '\\' := fun h ↦ hescape _ _ h rfl
      rw [heq]
      exact congrArg Option.isSome (rune?_plain hc)

theorem spells_stringExtent (cs text : List Char) : (stringExtent cs).kind.Spells text := by
  fun_induction stringExtent cs with
  | case5 _ _ _ ih => exact ih
  | case7 _ _ _ _ _ _ ih => exact ih
  | _ => trivial

theorem spells_nameExtent (c : Char) (cs text : List Char) :
    (nameExtent c cs).kind.Spells text := by
  rw [nameExtent]
  dsimp only
  generalize String.ofList _ = word
  rw [Kind.ofWord?]
  split
  · trivial
  · cases Scalar.ofName? word <;> trivial

/-- **What a token is scanned as, it is spelled as.** -/
theorem spells_extent (c : Char) (cs : List Char) :
    (extent c cs).kind.Spells (c :: cs.take (extent c cs).length) := by
  fun_cases extent c cs with
  | case1 => trivial
  | case2 => trivial
  | case3 _ _ hc => exact spells_numberExtent hc cs
  | case4 _ _ _ hc =>
    subst hc
    exact spells_runeExtent cs
  | case5 => exact spells_stringExtent cs _
  | case6 => exact spells_nameExtent c cs _
  | case7 => trivial

/-- What is spelled is not the end mark. -/
theorem kind_ne_finish {t : Token} (h : t.kind.Spells t.text) : t.kind ≠ .finish := by
  intro hk
  rw [hk] at h
  exact h

/-! ### Streams -/

/-- A stream is tokens that are spelled as their kinds ask for, and the end mark. -/
theorem scanFrom_eq_append (offset : Nat) (cs : List Char) :
    ∃ ts stop, scanFrom offset cs = ts ++ [finishAt stop] ∧ ∀ t ∈ ts, t.kind.Spells t.text := by
  fun_induction scanFrom offset cs with
  | case1 => exact ⟨[], _, rfl, nofun⟩
  | case2 _ _ _ _ c ds _ t =>
    exact ⟨[t], _, rfl, List.forall_mem_singleton.2 (spells_extent c ds)⟩
  | case3 _ _ _ _ c ds _ t _ ih =>
    obtain ⟨ts, stop, heq, hts⟩ := ih
    exact ⟨t :: ts, stop, congrArg (t :: ·) heq,
      List.forall_mem_cons.2 ⟨spells_extent c ds, hts⟩⟩

/-- **Every token is spelled as its kind says**, the end mark apart. -/
theorem spells_of_mem_scan {text : String} {t : Token} (ht : t ∈ scan text)
    (hk : t.kind ≠ .finish) : t.kind.Spells t.text := by
  obtain ⟨ts, stop, hscan, hspells⟩ := scanFrom_eq_append 0 text.toList
  rw [scan, scanList, hscan] at ht
  rcases List.mem_append.1 ht with ht | ht
  · exact hspells t ht
  · obtain rfl := List.mem_singleton.1 ht
    exact absurd rfl hk

/-! ### Values -/

theorem hasValue_iff_of_constantOf? {t : Token} {r : Except ParseError.Cause Constant}
    (hr : Expr.constantOf? t = some r) : t.HasValue ↔ ∃ v, r = .ok v :=
  ⟨fun h ↦ h r hr, fun h _ hr' ↦ Option.some.inj (hr.symm.trans hr') ▸ h⟩

/-- An integer has a value if its digits can be read and the number is not too large. -/
theorem hasValue_int {t : Token} (hk : t.kind = .int) :
    t.HasValue ↔ ∃ v, integer t.text = .ok v := by
  rw [hasValue_iff_of_constantOf? (by rw [Expr.constantOf?, hk])]
  split
  · rename_i v heq
    exact iff_of_true ⟨_, rfl⟩ ⟨v, heq⟩
  · rename_i heq
    simp [heq]
  · rename_i heq
    simp [heq]

theorem hasValue_float {t : Token} (hk : t.kind = .float) :
    t.HasValue ↔ ∃ v, float t.text = .ok v := by
  rw [hasValue_iff_of_constantOf? (by rw [Expr.constantOf?, hk])]
  split
  · rename_i v heq
    exact iff_of_true ⟨_, rfl⟩ ⟨v, heq⟩
  · rename_i heq
    simp [heq]
  · rename_i heq
    simp [heq]

theorem hasValue_rune {t : Token} (hk : t.kind = .rune) (h : (rune? t.text).isSome = true) :
    t.HasValue := by
  obtain ⟨v, hv⟩ := Option.isSome_iff_exists.1 h
  exact (hasValue_iff_of_constantOf? (by rw [Expr.constantOf?, hk, hv])).2 ⟨_, rfl⟩

/-- **A literal has a value unless its number is too large.** -/
theorem hasValue_iff {t : Token} (h : t.kind.Spells t.text) :
    t.HasValue ↔ (t.kind = .int → numberOfInteger t.text < 2 ^ 64) ∧
      (t.kind = .float → numberOfFloat t.text < Binary64.overflow) := by
  cases hk : t.kind with
  | int =>
    rw [hk] at h
    rw [hasValue_int hk, integer_ok_iff h]
    exact ⟨fun hlt ↦ ⟨fun _ ↦ hlt, nofun⟩, fun hlt ↦ hlt.1 rfl⟩
  | float =>
    rw [hk] at h
    rw [hasValue_float hk, float_ok_iff h]
    exact ⟨fun hlt ↦ ⟨nofun, fun _ ↦ hlt⟩, fun hlt ↦ hlt.2 rfl⟩
  | rune =>
    rw [hk] at h
    exact iff_of_true (hasValue_rune hk h) ⟨nofun, nofun⟩
  | _ => exact iff_of_true (hasValue_of_kind hk (by simp)) ⟨nofun, nofun⟩

end Token

end FrontEnd
