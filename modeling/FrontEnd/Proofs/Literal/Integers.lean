import FrontEnd.Proofs.Program.Values
import FrontEnd.Proofs.Token.Rescanning

/-!
# Integer literals and their values

The radix of an integer literal is worked out twice: by the scanner, from the text as it stands, and
when its value is read, from the text without underscores. The two agree because underscores cannot
stand just anywhere. A literal is written as a **front**, which is its first digit or the zero and
the letter of its radix, and a **body** of digits and underscores behind it
(`IntegerForm.Writes`); the scanner takes all such texts and no others
(`IntegerForm.exists_writes`, `IntegerForm.Writes.lexes`), and without underscores the front stays
what it was.

So the value is that of the digits in the radix of the form, and it stays the same as long as the
front does: underscores in the body mean nothing, nor do zeros in front of the digits.
-/

namespace FrontEnd

open Literal

namespace Token

theorem ofWord?_getD_ne_int (word : String) : (Kind.ofWord? word).getD .ident ≠ .int := by
  rw [Kind.ofWord?]
  split
  · simp
  · cases Scalar.ofName? word <;> simp

/-- An integer starts with a digit. -/
theorem isDigit_of_int {c : Char} {cs : List Char} (h : (extent c cs).kind = .int) :
    c.isDigit = true := by
  revert h
  fun_cases extent c cs with
  | case3 _ _ hdigit => exact fun _ ↦ hdigit
  | case4 =>
    intro h
    rcases kind_runeExtent cs with hkind | hkind <;> rw [h] at hkind <;> cases hkind
  | case5 =>
    intro h
    rcases kind_stringExtent cs with hkind | hkind <;> rw [h] at hkind <;> cases hkind
  | case6 => exact fun h ↦ absurd h (ofWord?_getD_ne_int _)
  | _ => simp

end Token

/-- A **form** of integer literals: what stands in front of the digits, the radix, and the
characters that are digits. -/
structure IntegerForm where
  /-- The zero and the letter of a radix, or nothing. -/
  lead : List Char
  /-- The radix. -/
  radix : Nat
  /-- The digits there are. -/
  digits : List Char
deriving DecidableEq, Repr

namespace IntegerForm

/-- The forms of integer literals. -/
def all : List IntegerForm :=
  [⟨[], 10, "0123456789".toList⟩,
   ⟨['0', 'b'], 2, "01".toList⟩,
   ⟨['0', 'o'], 8, "01234567".toList⟩,
   ⟨['0', 'x'], 16, "0123456789abcdefABCDEF".toList⟩]

/-- **How a literal of a form is written**: a front of one digit, or of what stands before the
digits, and a body in which underscores may stand. Without them the two are the digits, behind what
stands before them. -/
structure Writes (form : IntegerForm) (front body digits : List Char) : Prop where
  length_front : front.length = max 1 form.lead.length
  append_eq : front ++ withoutSeparators body = form.lead ++ digits
  digits_ne_nil : digits ≠ []
  mem_digits : ∀ d ∈ digits, d ∈ form.digits

variable {form : IntegerForm} {front body digits text : List Char}

/-! ### The forms -/

theorem mem_digits_iff (hform : form ∈ all) {d : Char} :
    d ∈ form.digits ↔ Token.isDigitIn form.radix d = true := by
  have hall : ∀ form ∈ all,
      form.digits = "0123456789abcdefABCDEF".toList.filter (Token.isDigitIn form.radix) := by
    decide
  rw [hall form hform, List.mem_filter, and_iff_right_iff_imp]
  exact Token.mem_of_isDigitIn

/-- A form has digits only, or a radix letter. -/
theorem lead_cases (hform : form ∈ all) : form.lead = [] ∧ form.radix = 10 ∨
    ∃ r, form.lead = ['0', r] ∧ Token.radixOf? r = some form.radix := by
  simp only [all, List.mem_cons, List.not_mem_nil, or_false] at hform
  rcases hform with rfl | rfl | rfl | rfl
  · exact .inl ⟨rfl, rfl⟩
  · exact .inr ⟨'b', rfl, rfl⟩
  · exact .inr ⟨'o', rfl, rfl⟩
  · exact .inr ⟨'x', rfl, rfl⟩

/-- Every radix letter has a form. -/
theorem exists_of_radixOf? {r : Char} {radix : Nat} (hr : Token.radixOf? r = some radix) :
    ∃ form ∈ all, form.lead = ['0', r] ∧ form.radix = radix := by
  rw [Token.radixOf?.eq_def] at hr
  split at hr
  · exact ⟨_, List.mem_of_getElem? (i := 1) rfl, rfl, Option.some.inj hr⟩
  · exact ⟨_, List.mem_of_getElem? (i := 2) rfl, rfl, Option.some.inj hr⟩
  · exact ⟨_, List.mem_of_getElem? (i := 3) rfl, rfl, Option.some.inj hr⟩
  · cases hr

theorem isDigit_of_mem_digits (hform : form ∈ all) (hlead : form.lead = []) {d : Char}
    (h : d ∈ form.digits) : d.isDigit = true := by
  have hall : ∀ form ∈ all, form.lead = [] → form.digits.all Char.isDigit = true := by decide
  exact List.all_eq_true.1 (hall form hform hlead) d h

namespace Writes

/-- Behind a radix letter, the front is what stands before the digits. -/
theorem eq_of_lead (h : form.Writes front body digits) {r : Char} (hlead : form.lead = ['0', r]) :
    front = ['0', r] ∧ withoutSeparators body = digits := by
  have hlength := h.length_front
  have happend := h.append_eq
  rw [hlead] at hlength happend
  exact List.append_inj happend hlength

/-- Otherwise it is a digit. -/
theorem eq_of_lead_nil (h : form.Writes front body digits) (hlead : form.lead = []) :
    ∃ c, front = [c] ∧ c :: withoutSeparators body = digits := by
  have hlength := h.length_front
  have happend := h.append_eq
  rw [hlead] at hlength happend
  obtain ⟨c, rfl⟩ := List.length_eq_one_iff.1 hlength
  exact ⟨c, rfl, happend⟩

theorem withoutSeparators_append (hform : form ∈ all) (h : form.Writes front body digits) :
    withoutSeparators (front ++ body) = form.lead ++ digits := by
  have hall : ∀ form ∈ all, '_' ∉ form.lead ∧ '_' ∉ form.digits := by decide
  obtain ⟨hlead, hdigits⟩ := hall form hform
  have hplain : '_' ∉ form.lead ++ digits := fun hmem ↦
    (List.mem_append.1 hmem).elim hlead fun hmem ↦ hdigits (h.mem_digits _ hmem)
  -- the front has no underscore because what it starts has none
  have hfront : withoutSeparators front = front := by
    refine List.filter_eq_self.2 fun c hc ↦ decide_eq_true ?_
    rintro rfl
    exact hplain (h.append_eq ▸ List.mem_append_left _ hc)
  rw [withoutSeparators, List.filter_append, ← h.append_eq]
  exact congrArg (· ++ withoutSeparators body) hfront

end Writes

/-! ### Values -/

/-- **The value of a literal is that of its digits in its radix**, and it has to fit in 64 bits. -/
theorem integer_eq_positional (hform : form ∈ all)
    (htext : withoutSeparators text = form.lead ++ digits) (hne : digits ≠ [])
    (hmem : ∀ d ∈ digits, d ∈ form.digits) :
    integer text = if positional form.radix digits < 2 ^ 64 then
      .ok (positional form.radix digits) else .error .tooLarge := by
  have hshape : IsInteger (form.lead ++ digits) ∧
      radixAndDigits (form.lead ++ digits) = (form.radix, digits) := by
    rcases lead_cases hform with ⟨hlead, hten⟩ | ⟨r, hlead, hr⟩
    · have hdigits : IsDigits digits := fun d hd ↦ isDigit_of_mem_digits hform hlead (hmem d hd)
      rw [hlead, hten]
      exact ⟨.decimal hne hdigits, radixAndDigits_of_isDigits hdigits⟩
    · rw [hlead, List.cons_append, List.cons_append, radixAndDigits, hr]
      exact ⟨.inRadix hr hne fun d hd ↦ (mem_digits_iff hform).1 (hmem d hd), rfl⟩
  rw [← htext] at hshape
  rw [integer_eq hshape.1, numberOfInteger_eq, hshape.2]

theorem positional_replicate_zero (radix zeros : Nat) (ds : List Char) :
    positional radix (List.replicate zeros '0' ++ ds) = positional radix ds := by
  have hzero : digitNumber '0' = 0 := by decide
  induction zeros with
  | zero => rfl
  | succ zeros ih => rw [List.replicate_succ, List.cons_append, positional_cons, hzero, ih]; simp

/-- **The value stays when the body is written differently**: with the same digits, or with zeros
before them if they stand behind a radix letter. -/
theorem Writes.respelled (hform : form ∈ all) (h : form.Writes front body digits)
    {body' : List Char} {zeros : Nat}
    (hbody : withoutSeparators body' = List.replicate zeros '0' ++ withoutSeparators body)
    (hzeros : form.lead = [] → zeros = 0) :
    ∃ digits', form.Writes front body' digits' ∧
      positional form.radix digits' = positional form.radix digits := by
  rcases lead_cases hform with ⟨hlead, -⟩ | ⟨r, hlead, -⟩
  · obtain rfl := hzeros hlead
    have happend := h.append_eq
    rw [← List.nil_append (withoutSeparators body), ← List.replicate_zero, ← hbody] at happend
    exact ⟨digits, ⟨h.length_front, happend, h.digits_ne_nil, h.mem_digits⟩, rfl⟩
  · -- the zeros are digits of the form, as they are of every one
    have hall : ∀ form ∈ all, '0' ∈ form.digits := by decide
    obtain ⟨hfront, hdigits⟩ := h.eq_of_lead hlead
    refine ⟨List.replicate zeros '0' ++ digits, ⟨h.length_front, ?_, ?_, ?_⟩,
      positional_replicate_zero _ _ _⟩
    · rw [hbody, hdigits, hfront, hlead]
    · exact List.append_ne_nil_of_right_ne_nil _ h.digits_ne_nil
    · refine List.forall_mem_append.2 ⟨fun d hd ↦ ?_, h.mem_digits⟩
      rw [List.eq_of_mem_replicate hd]
      exact hall form hform

/-! ### Scanning -/

/-- A radix letter behind a zero is scanned back with the digits behind it. -/
theorem lexes_radix {r : Char} {radix : Nat} (hr : Token.radixOf? r = some radix)
    (hbody : ∀ d ∈ body, Token.isDigitIn radix d = true ∨ d = '_')
    (hdigit : ∃ d ∈ body, Token.isDigitIn radix d = true) :
    Lexeme.Lexes ⟨.int, '0' :: r :: body⟩ := by
  have hmarks : '0' ∉ Lexeme.marks := by decide
  refine Lexeme.lexes_of_notMem_marks hmarks rfl fun rest hrest ↦ ?_
  have hrun := (takeWhile_dropWhile_append
    (p := fun c ↦ Token.isDigitIn radix c || c == '_') (by simpa using hbody)
    (hrest.of_eq_false rfl)).1
  rw [Lexeme.extent_of_notMem_marks hmarks, if_pos (by decide), List.cons_append,
    Token.numberExtent, hr]
  dsimp only [Token.radixExtent]
  rw [hrun, if_pos (List.any_eq_true.2 hdigit)]
  rfl

/-- There are only digits and underscores in a body. -/
theorem Writes.mem_body (hform : form ∈ all) (h : form.Writes front body digits) :
    ∀ d ∈ body, d ∈ form.digits ∨ d = '_' := by
  intro d hd
  by_cases hseparator : d = '_'
  · exact .inr hseparator
  · have hmem : d ∈ withoutSeparators body := List.mem_filter.2 ⟨hd, decide_eq_true hseparator⟩
    refine .inl (h.mem_digits d ?_)
    rcases lead_cases hform with ⟨hlead, -⟩ | ⟨r, hlead, -⟩
    · obtain ⟨c, -, rfl⟩ := h.eq_of_lead_nil hlead
      exact List.mem_cons_of_mem c hmem
    · obtain ⟨-, rfl⟩ := h.eq_of_lead hlead
      exact hmem

/-- **Whatever is written in a form is scanned back.** -/
theorem Writes.lexes (hform : form ∈ all) (h : form.Writes front body digits) :
    Lexeme.Lexes ⟨.int, front ++ body⟩ := by
  rcases lead_cases hform with ⟨hlead, -⟩ | ⟨r, hlead, hr⟩
  · have hdigit (d : Char) (hd : d ∈ form.digits) := isDigit_of_mem_digits hform hlead hd
    obtain ⟨c, rfl, rfl⟩ := h.eq_of_lead_nil hlead
    exact Lexeme.lexes_digits (hdigit c (h.mem_digits c List.mem_cons_self))
      fun d hd ↦ (h.mem_body hform d hd).imp_left (hdigit d)
  · have hdigit (d : Char) (hd : d ∈ form.digits) := (mem_digits_iff hform).1 hd
    obtain ⟨rfl, rfl⟩ := h.eq_of_lead hlead
    refine lexes_radix hr (fun d hd ↦ (h.mem_body hform d hd).imp_left (hdigit d)) ?_
    obtain ⟨d, ds, hds⟩ := List.exists_cons_of_ne_nil h.digits_ne_nil
    have hd : d ∈ withoutSeparators body := hds ▸ List.mem_cons_self
    exact ⟨d, (List.mem_filter.1 hd).1, hdigit d (h.mem_digits d hd)⟩

/-- **An integer is written in one of the forms.** -/
theorem exists_writes {c : Char} {cs : List Char} (h : (Token.extent c cs).kind = .int) :
    ∃ form ∈ all, ∃ front body digits,
      c :: cs.take (Token.extent c cs).length = front ++ body ∧ form.Writes front body digits := by
  have hc := Token.isDigit_of_int h
  have hmarks : c ∉ Lexeme.marks := Lexeme.notMem_marks (by decide) hc
  rw [Lexeme.extent_of_notMem_marks hmarks, if_pos hc] at h ⊢
  rcases Lexeme.numberExtent_cases c cs with ⟨r, ds, radix, rfl, rfl, hr, heq⟩ | ⟨-, heq⟩
  · rw [heq, Token.Extent.grow_kind] at h
    obtain ⟨form, hform, hlead, rfl⟩ := exists_of_radixOf? hr
    obtain ⟨-, hne, hdigits⟩ := Token.digits_radixExtent (by rw [h]; rfl)
    refine ⟨form, hform, ['0', r], ds.take (Token.radixExtent form.radix ds).length, _, ?_, ?_, ?_,
      hne, ?_⟩
    · rw [heq]
      rfl
    · rw [hlead]
      rfl
    · rw [hlead]
    · exact fun d hd ↦ (mem_digits_iff hform).2 (hdigits d hd)
  · rw [heq] at h ⊢
    have hdigits : IsDigits (c :: withoutSeparators
        (cs.take (Token.decimalExtent .whole false cs).length)) := by
      rw [← withoutSeparators_cons (Token.ne_underscore_of_isDigit hc)]
      rcases Token.shape_decimalExtent hc (by rw [h]; rfl) with ⟨-, hds⟩ | ⟨hk, -⟩
      · exact hds
      · cases h.symm.trans hk
    -- without a radix letter the front is the first digit
    have hform : ⟨[], 10, "0123456789".toList⟩ ∈ all := List.mem_cons_self
    refine ⟨_, hform, [c], cs.take (Token.decimalExtent .whole false cs).length, _, rfl, rfl, rfl,
      List.cons_ne_nil _ _, fun d hd ↦ ?_⟩
    exact (mem_digits_iff hform).2 (Token.isDigitIn_ten (hdigits d hd))

/-! ### Literals of a text -/

theorem map_lexeme_scan {w : Lexeme} (h : w.Lexes) :
    (Token.scan (String.ofList w.text)).map Token.lexeme = [w, .finish] := by
  have hscan := h [] (fun c hc ↦ absurd hc (by simp)) 0
  rw [List.append_nil, Token.scanFrom_nil] at hscan
  rw [Token.scan, String.toList_ofList, Token.scanList, hscan]
  rfl

theorem exists_writes_of_mem_scan {text : String} {t : Token} (ht : t ∈ Token.scan text)
    (hk : t.kind = .int) : ∃ form ∈ all, ∃ front body digits,
      t.text = front ++ body ∧ form.Writes front body digits := by
  obtain ⟨start, c, cs, rfl, -⟩ := Token.exists_read_of_mem_scanFrom ht (by simp [hk])
  exact exists_writes hk

end IntegerForm

open IntegerForm

/-- **Integer literals denote the numbers that they spell.**

An integer in a text is written in one of four forms: without its underscores it is a row of
decimal digits, or of binary, octal or hexadecimal ones behind `0b`, `0o` or `0x`. Its value is what
the digits spell in the radix of the form, if that is less than `2 ^ 64`, and otherwise it is said
to be too large. If underscores are put in or taken out behind the first digit or the letter, or
zeros are put in front of the digits behind a letter, the text is still scanned as one integer, with
the same value. And no text has an integer that is found to be malformed. -/
theorem integer_literals :
    (∀ text : String, ∀ t ∈ Token.scan text, t.kind = .int →
      ∃ form ∈ IntegerForm.all, ∃ front body digits,
        t.text = front ++ body ∧ front.length = max 1 form.lead.length ∧
        withoutSeparators t.text = form.lead ++ digits ∧
        digits ≠ [] ∧ (∀ d ∈ digits, d ∈ form.digits) ∧
        (positional form.radix digits < 2 ^ 64 →
          integer t.text = .ok (positional form.radix digits)) ∧
        (2 ^ 64 ≤ positional form.radix digits → integer t.text = .error .tooLarge ∧
          ∃ cause, Expr.constantOf? t = some (.error cause) ∧
            cause.message = "integer value too large") ∧
        ∀ body' zeros,
          withoutSeparators body' = List.replicate zeros '0' ++ withoutSeparators body →
          (form.lead = [] → zeros = 0) →
            integer (front ++ body') = integer t.text ∧
            (Token.scan (String.ofList (front ++ body'))).map Token.lexeme =
              [⟨.int, front ++ body'⟩, .finish]) ∧
    ∀ (p : Program) (source : SourceFile) (e : ParseError),
      (p.parseFile source).error? = some e → ∀ u, e.cause ≠ .malformedInteger u := by
  refine ⟨fun text t ht hk ↦ ?_, fun p source e he u hcause ↦ ?_⟩
  · obtain ⟨form, hform, front, body, digits, htext, hwrites⟩ := exists_writes_of_mem_scan ht hk
    have hplain : withoutSeparators t.text = form.lead ++ digits :=
      htext ▸ hwrites.withoutSeparators_append hform
    have hvalue := integer_eq_positional hform hplain hwrites.digits_ne_nil hwrites.mem_digits
    refine ⟨form, hform, front, body, digits, htext, hwrites.length_front, hplain,
      hwrites.digits_ne_nil, hwrites.mem_digits, fun hlt ↦ ?_, fun hle ↦ ?_, ?_⟩
    · rw [hvalue, if_pos hlt]
    · have herror : integer t.text = .error .tooLarge := by rw [hvalue, if_neg (by omega)]
      exact ⟨herror, .integerTooLarge, by rw [Expr.constantOf?, hk, herror], rfl⟩
    · intro body' zeros hbody hzeros
      obtain ⟨digits', hagain, hsame⟩ := hwrites.respelled hform hbody hzeros
      have hscan := map_lexeme_scan (hagain.lexes hform)
      refine ⟨?_, hscan⟩
      rw [hvalue, integer_eq_positional hform (hagain.withoutSeparators_append hform)
        hagain.digits_ne_nil hagain.mem_digits, hsame]
  · have hsize := Program.cause_of_isValue he (by rw [hcause]; rfl)
    simp [hcause] at hsize

/-- A hexadecimal literal with an underscore behind its letter. -/
theorem integer_literals_hexadecimal :
    ∃ t ∈ Token.scan "let x = 0x_fF;", t.kind = .int ∧ integer t.text = .ok 255 ∧
      ∃ form ∈ IntegerForm.all, ∃ digits, withoutSeparators t.text = form.lead ++ digits ∧
        (positional form.radix digits < 2 ^ 64 →
          integer t.text = .ok (positional form.radix digits)) := by
  have ht : ∃ t ∈ Token.scan "let x = 0x_fF;", t.kind = .int ∧ integer t.text = .ok 255 := by
    decide +kernel
  obtain ⟨t, ht, hk, hvalue⟩ := ht
  obtain ⟨form, hform, -, -, digits, -, -, hplain, -, -, hnumber, -⟩ :=
    integer_literals.1 _ t ht hk
  exact ⟨t, ht, hk, hvalue, form, hform, digits, hplain, hnumber⟩

end FrontEnd
