import FrontEnd.Proofs.Program.Values
import FrontEnd.Proofs.Token.Lexemes
import Mathlib.Data.List.TakeWhile

/-!
# Decimal numbers and what is wrong with them

The scanner of decimal numbers is a machine: it goes from character to character, keeps the part of
the number that it has reached, and stops at the first character that it cannot take. Here the same
is said without a machine. A number is sought in the longest **run** of characters that belong to
numbers (`Numeral.Longest`). A character **offends** if the ones before it forbid it
(`Numeral.offence?`), and an exponent may be left without a digit (`Numeral.LacksDigit`); if neither
is the case the run is the number (`Numeral.Verdict`).

The part that the machine has reached can be read off what it has taken (`Numeral.partOf`). That is
the invariant which ties the two together (`Numeral.Reached`), kept by every character that does not
offend, so the machine ends where the characters say (`Numeral.outcome_decimalExtent`).

The grammar of numbers is a third description. A spelled number has no offence and no exponent
without a digit (`Literal.IsFloat.unoffending`, `Literal.IsFloat.not_lacksDigit`), and underscores
make no difference to either.
-/

namespace FrontEnd

open Literal Token

namespace Numeral

variable {r before cs : List Char} {c d : Char}

/-! ### Characters and what stands before them -/

/-- Every character of a row passes a test, which may look at **what stands before it**. -/
def Along (P : List Char → Char → Prop) (r : List Char) : Prop :=
  ∀ before c, before ++ [c] <+: r → P before c

theorem along_nil (P : List Char → Char → Prop) : Along P [] := by
  intro before c h
  exact absurd (List.prefix_nil.1 h) (by simp)

theorem along_concat {P : List Char → Char → Prop} :
    Along P (r ++ [c]) ↔ Along P r ∧ P r c := by
  constructor
  · intro h
    exact ⟨fun before d hd ↦ h before d (hd.trans (List.prefix_append _ _)),
      h r c (List.prefix_refl _)⟩
  · rintro ⟨hr, hc⟩ before d hd
    rcases List.prefix_concat_iff.1 hd with heq | hd
    · obtain ⟨rfl, hlast⟩ := List.append_inj' heq rfl
      obtain rfl := List.singleton_inj.1 hlast
      exact hc
    · exact hr before d hd

/-! ### Runs -/

/-- Whether a character may stand behind others in a number: a digit, an underscore, a point or the
letter of an exponent anywhere, and a sign directly behind the letter of an exponent. -/
def admits (before : List Char) (c : Char) : Bool :=
  c.isDigit || c == '_' || c == '.' || isExponentLetter c ||
    isExponentSign c && before.getLast?.any isExponentLetter

/-- A **run** of characters that belong to numbers. -/
def IsRun (r : List Char) : Prop :=
  Along (fun before c ↦ admits before c = true) r

/-- A row is the **longest run** that a text starts with. -/
structure Longest (r text : List Char) : Prop where
  starts : r <+: text
  isRun : IsRun r
  length_le : ∀ s, s <+: text → IsRun s → s.length ≤ r.length

/-- The run that goes on behind `before`. -/
def runFrom (before : List Char) : List Char → List Char
  | [] => []
  | c :: cs => if admits before c then c :: runFrom (before ++ [c]) cs else []

theorem runFrom_of_admits (h : admits before c = true) (cs : List Char) :
    runFrom before (c :: cs) = c :: runFrom (before ++ [c]) cs :=
  if_pos h

theorem runFrom_of_not_admits (h : admits before c = false) (cs : List Char) :
    runFrom before (c :: cs) = [] :=
  if_neg (Bool.eq_false_iff.1 h)

/-- **A run is the longest if it goes on as long as it can.** -/
theorem longest_runFrom (h : IsRun before) (cs : List Char) :
    Longest (before ++ runFrom before cs) (before ++ cs) := by
  induction cs generalizing before with
  | nil => exact ⟨List.prefix_refl _, by rwa [runFrom, List.append_nil], fun s hs _ ↦ hs.length_le⟩
  | cons c cs ih =>
    cases hc : admits before c with
    | true =>
      have hlongest := ih (along_concat.2 ⟨h, hc⟩)
      rw [List.append_assoc, List.append_assoc] at hlongest
      rwa [runFrom_of_admits hc]
    | false =>
      rw [runFrom_of_not_admits hc, List.append_nil]
      refine ⟨List.prefix_append _ _, h, fun s hs hrun ↦ ?_⟩
      by_contra hlt
      -- a longer run would have taken the character
      have hmore : before ++ [c] <+: s := by
        refine List.prefix_of_prefix_length_le ?_ hs (by simp; omega)
        exact ⟨cs, by simp⟩
      cases hc.symm.trans (hrun before c hmore)

/-! ### Offences -/

/-- **What is wrong with a character** behind others in a number, if something is. -/
def offence? (before : List Char) (c : Char) : Option Fault :=
  if c = '.' then
    if before.any isExponentLetter then some .pointInExponent
    else if '.' ∈ before then some .secondPoint
    else none
  else if isExponentLetter c && before.any isExponentLetter then some .secondExponent
  else none

/-- No character of a row offends. -/
def Unoffending (r : List Char) : Prop :=
  Along (fun before c ↦ offence? before c = none) r

/-- There is the letter of an exponent, and no digit behind it. -/
def LacksDigit (r : List Char) : Prop :=
  ∃ before e after, r = before ++ e :: after ∧ isExponentLetter e = true ∧
    ∀ d ∈ after, d.isDigit = false

theorem ne_point_of_isExponentLetter (h : isExponentLetter c = true) : c ≠ '.' := by
  rintro rfl
  cases h

theorem offence?_of_plain (hpoint : c ≠ '.') (hletter : isExponentLetter c = false)
    (before : List Char) : offence? before c = none := by
  rw [offence?, if_neg hpoint, hletter]
  rfl

theorem offence?_of_letter (hc : isExponentLetter c = true) (before : List Char) :
    offence? before c = if before.any isExponentLetter then some .secondExponent else none := by
  rw [offence?, if_neg (ne_point_of_isExponentLetter hc), hc, Bool.true_and]

theorem unoffending_concat : Unoffending (r ++ [c]) ↔ Unoffending r ∧ offence? r c = none :=
  along_concat

/-- What stands before an offence is shorter than what stands before any other. -/
theorem length_le_of_offence? {before before' : List Char} {c c' : Char} {f : Fault}
    (hc : before ++ [c] <+: r) (hf : offence? before c = some f) (hc' : before' ++ [c'] <+: r)
    (hbefore' : Unoffending before') : before'.length ≤ before.length := by
  by_contra hlt
  have hmore : before ++ [c] <+: before' :=
    List.prefix_of_prefix_length_le hc ((List.prefix_append _ _).trans hc') (by simp; omega)
  cases hf.symm.trans (hbefore' before c hmore)

/-- **There is only one first offence** in a row. -/
theorem eq_of_offence? {before before' : List Char} {c c' : Char} {f f' : Fault}
    (hc : before ++ [c] <+: r) (hbefore : Unoffending before) (hf : offence? before c = some f)
    (hc' : before' ++ [c'] <+: r) (hbefore' : Unoffending before')
    (hf' : offence? before' c' = some f') : before = before' ∧ c = c' ∧ f = f' := by
  have hlength : before.length = before'.length :=
    Nat.le_antisymm (length_le_of_offence? hc' hf' hc hbefore)
      (length_le_of_offence? hc hf hc' hbefore')
  have heq : before ++ [c] = before' ++ [c'] :=
    (List.prefix_of_prefix_length_le hc hc' (by simp [hlength])).eq_of_length (by simp [hlength])
  obtain ⟨rfl, hlast⟩ := List.append_inj heq hlength
  obtain rfl := List.singleton_inj.1 hlast
  exact ⟨rfl, rfl, Option.some.inj (hf.symm.trans hf')⟩

/-! ### The part of a number that has been reached -/

/-- **The part of a number that a row ends in.** -/
def partOf (r : List Char) : DecimalPart :=
  if r.any isExponentLetter then
    .exponent ((r.dropWhile fun c ↦ !isExponentLetter c).any Char.isDigit)
  else if '.' ∈ r then .fraction
  else .whole

theorem partOf_of_any (h : r.any isExponentLetter = true) :
    partOf r = .exponent ((r.dropWhile fun c ↦ !isExponentLetter c).any Char.isDigit) :=
  if_pos h

theorem partOf_of_not_any (h : r.any isExponentLetter = false) :
    partOf r = if '.' ∈ r then .fraction else .whole :=
  if_neg (Bool.eq_false_iff.1 h)

theorem partOf_eq_exponent_iff :
    (∃ b, partOf r = .exponent b) ↔ r.any isExponentLetter = true := by
  cases h : r.any isExponentLetter with
  | true => exact iff_of_true ⟨_, partOf_of_any h⟩ rfl
  | false =>
    refine iff_of_false ?_ Bool.false_ne_true
    rintro ⟨b, hb⟩
    rw [partOf_of_not_any h] at hb
    split at hb <;> cases hb

theorem partOf_eq_fraction_iff :
    partOf r = .fraction ↔ r.any isExponentLetter = false ∧ '.' ∈ r := by
  cases h : r.any isExponentLetter with
  | true => simp [partOf_of_any h]
  | false => simp [partOf_of_not_any h]

theorem partOf_eq_whole_iff :
    partOf r = .whole ↔ r.any isExponentLetter = false ∧ '.' ∉ r := by
  cases h : r.any isExponentLetter with
  | true => simp [partOf_of_any h]
  | false => simp [partOf_of_not_any h]

/-- The first letter of an exponent is where the exponent starts. -/
theorem partOf_append_letter {e : Char} {after : List Char}
    (hbefore : before.any isExponentLetter = false) (he : isExponentLetter e = true) :
    partOf (before ++ e :: after) = .exponent (after.any Char.isDigit) := by
  have hnone : ∀ d ∈ before, (!isExponentLetter d) = true := by simpa using hbefore
  have hany : (before ++ e :: after).any isExponentLetter = true := by simp [he]
  rw [partOf_of_any hany, List.dropWhile_append_of_pos hnone]
  simp [he, isDigit_of_isExponentLetter he]

theorem dropWhile_concat (h : r.any isExponentLetter = true) (c : Char) :
    (r ++ [c]).dropWhile (fun c ↦ !isExponentLetter c) =
      r.dropWhile (fun c ↦ !isExponentLetter c) ++ [c] := by
  obtain ⟨e, he, hletter⟩ := List.any_eq_true.1 h
  rw [List.dropWhile_append, if_neg]
  rw [List.isEmpty_iff, List.dropWhile_eq_nil_iff]
  intro hnone
  have hnot := hnone e he
  rw [hletter] at hnot
  cases hnot

/-- A character that is neither a point nor a letter makes a difference only to an exponent. -/
theorem partOf_concat (hpoint : c ≠ '.') (hletter : isExponentLetter c = false) :
    partOf (r ++ [c]) = if c.isDigit then (partOf r).afterDigit else partOf r := by
  have hany : (r ++ [c]).any isExponentLetter = r.any isExponentLetter := by simp [hletter]
  cases hr : r.any isExponentLetter with
  | true =>
    rw [partOf_of_any hr, partOf_of_any (hany.trans hr), dropWhile_concat hr, List.any_append]
    cases hc : c.isDigit with
    | true => simp [DecimalPart.afterDigit, hc]
    | false => simp [hc]
  | false =>
    have hmem : '.' ∈ r ++ [c] ↔ '.' ∈ r := by simp [hpoint.symm]
    rw [partOf_of_not_any hr, partOf_of_not_any (hany.trans hr)]
    simp only [hmem]
    split <;> split <;> rfl

theorem partOf_concat_point (h : partOf r = .whole) : partOf (r ++ ['.']) = .fraction := by
  obtain ⟨hletter, -⟩ := partOf_eq_whole_iff.1 h
  refine partOf_eq_fraction_iff.2 ⟨?_, List.mem_append_right _ List.mem_cons_self⟩
  rw [List.any_append, hletter]
  rfl

theorem partOf_concat_letter (h : ∀ b, partOf r ≠ .exponent b) (hc : isExponentLetter c = true) :
    partOf (r ++ [c]) = .exponent false := by
  refine partOf_append_letter (Bool.eq_false_iff.2 fun hany ↦ ?_) hc
  obtain ⟨b, hb⟩ := partOf_eq_exponent_iff.2 hany
  exact h b hb

/-! ### The machine -/

/-- What is known of the characters that the machine has taken when it has reached a part. -/
structure Reached (part : DecimalPart) (afterLetter : Bool) (before : List Char) : Prop where
  partOf_eq : partOf before = part
  any_getLast? : before.getLast?.any isExponentLetter = afterLetter
  unoffending : Unoffending before

namespace Reached

variable {part : DecimalPart} {afterLetter : Bool}

theorem plain (h : Reached part afterLetter before) (hpoint : c ≠ '.')
    (hletter : isExponentLetter c = false) :
    Reached (if c.isDigit then part.afterDigit else part) false (before ++ [c]) where
  partOf_eq := by rw [partOf_concat hpoint hletter, h.partOf_eq]
  any_getLast? := by simp [hletter]
  unoffending := unoffending_concat.2 ⟨h.unoffending, offence?_of_plain hpoint hletter before⟩

theorem point (h : Reached .whole afterLetter before) :
    Reached .fraction false (before ++ ['.']) where
  partOf_eq := partOf_concat_point h.partOf_eq
  any_getLast? := by
    rw [List.getLast?_concat]
    rfl
  unoffending := by
    obtain ⟨hletter, hpoint⟩ := partOf_eq_whole_iff.1 h.partOf_eq
    refine unoffending_concat.2 ⟨h.unoffending, ?_⟩
    rw [offence?, if_pos rfl, hletter, if_neg Bool.false_ne_true, if_neg hpoint]

theorem letter (h : Reached part afterLetter before) (hpart : ∀ b, part ≠ .exponent b)
    (hc : isExponentLetter c = true) : Reached (.exponent false) true (before ++ [c]) where
  partOf_eq := partOf_concat_letter (h.partOf_eq ▸ hpart) hc
  any_getLast? := by simp [hc]
  unoffending := by
    have hnone : before.any isExponentLetter = false := by
      refine Bool.eq_false_iff.2 fun hany ↦ ?_
      obtain ⟨b, hb⟩ := partOf_eq_exponent_iff.2 hany
      exact hpart b (h.partOf_eq.symm.trans hb)
    refine unoffending_concat.2 ⟨h.unoffending, ?_⟩
    rw [offence?_of_letter hc, hnone, if_neg Bool.false_ne_true]

theorem offence?_point (h : Reached .fraction afterLetter before) :
    offence? before '.' = some .secondPoint := by
  obtain ⟨hletter, hpoint⟩ := partOf_eq_fraction_iff.1 h.partOf_eq
  rw [offence?, if_pos rfl, hletter, if_neg Bool.false_ne_true, if_pos hpoint]

theorem offence?_point_exponent {b : Bool} (h : Reached (.exponent b) afterLetter before) :
    offence? before '.' = some .pointInExponent := by
  rw [offence?, if_pos rfl, if_pos (partOf_eq_exponent_iff.1 ⟨b, h.partOf_eq⟩)]

theorem offence?_letter {b : Bool} (h : Reached (.exponent b) afterLetter before)
    (hc : isExponentLetter c = true) : offence? before c = some .secondExponent := by
  rw [offence?_of_letter hc, if_pos (partOf_eq_exponent_iff.1 ⟨b, h.partOf_eq⟩)]

end Reached

/-- **What the machine says of the characters behind `before`**: it stops at the first that offends,
or where the run ends. -/
inductive Outcome (before cs : List Char) : Extent → Prop
  | offence {mid : List Char} {d : Char} {f : Fault} : mid ++ [d] <+: runFrom before cs →
    Unoffending (before ++ mid) → offence? (before ++ mid) d = some f →
    Outcome before cs ⟨.fault f, mid.length + 1⟩
  | run : Unoffending (before ++ runFrom before cs) →
    Outcome before cs
      ⟨(partOf (before ++ runFrom before cs)).kind, (runFrom before cs).length⟩

namespace Outcome

theorem grow {e : Extent} (hc : admits before c = true) (h : Outcome (before ++ [c]) cs e) :
    Outcome before (c :: cs) (e.grow 1) := by
  cases h with
  | @offence mid d f hd hmid hf =>
    have hd' : (c :: mid) ++ [d] <+: runFrom before (c :: cs) := by
      rw [runFrom_of_admits hc]
      exact (List.cons_prefix_cons.2 ⟨rfl, hd⟩)
    rw [List.append_assoc] at hmid hf
    exact .offence hd' hmid hf
  | run hrun =>
    have heq : before ++ [c] ++ runFrom (before ++ [c]) cs =
        before ++ runFrom before (c :: cs) := by
      rw [runFrom_of_admits hc, List.append_assoc]
      rfl
    have hlength : (runFrom (before ++ [c]) cs).length + 1 = (runFrom before (c :: cs)).length := by
      rw [runFrom_of_admits hc]
      rfl
    rw [heq] at hrun ⊢
    rw [Extent.grow, hlength]
    exact .run hrun

theorem fault {f : Fault} (hbefore : Unoffending before) (hc : admits before c = true)
    (hf : offence? before c = some f) : Outcome before (c :: cs) ⟨.fault f, 1⟩ := by
  have hfirst : [] ++ [c] <+: runFrom before (c :: cs) := by
    rw [runFrom_of_admits hc]
    exact List.prefix_append [c] _
  exact .offence hfirst (by rwa [List.append_nil]) (by rwa [List.append_nil])

theorem stop (hbefore : Unoffending before) (hnil : runFrom before cs = []) :
    Outcome before cs ⟨(partOf before).kind, 0⟩ := by
  have h : Outcome before cs _ := .run (by rwa [hnil, List.append_nil])
  rwa [hnil, List.append_nil] at h

end Outcome

/-- **The machine does what the characters say.** -/
theorem outcome_decimalExtent {part : DecimalPart} {afterLetter : Bool}
    (h : Reached part afterLetter before) (cs : List Char) :
    Outcome before cs (decimalExtent part afterLetter cs) := by
  -- one step of the machine for each character, and the invariant goes along with what is taken
  fun_induction decimalExtent part afterLetter cs generalizing before with
  | case1 part afterLetter => exact h.partOf_eq ▸ .stop h.unoffending rfl
  | case2 part afterLetter c cs hc ih =>
    have hnext := h.plain (c := c) (by rintro rfl; cases hc) (isExponentLetter_of_isDigit hc)
    rw [if_pos hc] at hnext
    exact .grow (by simp [admits, hc]) (ih hnext)
  | case3 part afterLetter cs _ ih =>
    exact .grow (by simp [admits]) (ih (h.plain (c := '_') (by decide) rfl))
  | case4 afterLetter cs _ _ ih => exact .grow (by simp [admits]) (ih h.point)
  | case5 => exact .fault h.unoffending (by simp [admits]) h.offence?_point
  | case6 => exact .fault h.unoffending (by simp [admits]) h.offence?_point_exponent
  | case7 afterLetter c cs _ _ _ hc =>
    have hletter : isExponentLetter c = true := by simpa [isExponentLetter] using hc
    exact .fault h.unoffending (by simp [admits, hletter]) (h.offence?_letter hletter)
  | case8 afterLetter c cs _ _ _ hc part hpart ih =>
    have hletter : isExponentLetter c = true := by simpa [isExponentLetter] using hc
    exact .grow (by simp [admits, hletter]) (ih (h.letter hpart hletter))
  | case9 part afterLetter c cs hdigit _ hpoint hc hsign ih =>
    have hletter : isExponentLetter c = false := by simpa [isExponentLetter] using hc
    obtain ⟨rfl, hchar⟩ := Bool.and_eq_true_iff.1 hsign
    have hnext := h.plain hpoint hletter
    rw [if_neg hdigit] at hnext
    exact .grow (by simp [admits, hchar, h.any_getLast?]) (ih hnext)
  | case10 part afterLetter c cs hdigit hseparator hpoint hc hsign =>
    have hletter : isExponentLetter c = false := by simpa [isExponentLetter] using hc
    refine h.partOf_eq ▸ .stop h.unoffending (runFrom_of_not_admits ?_ cs)
    rw [admits, h.any_getLast?, hletter, Bool.and_comm, Bool.eq_false_iff.2 hsign]
    simp [hdigit, hseparator, hpoint]

/-! ### What is made of a run -/

/-- **What is made of a run**: the first character that offends is blamed, and the token ends behind
it. If there is none the token is the run, which is a number unless its exponent lacks a digit. -/
inductive Verdict (r : List Char) : Lexeme → Prop
  | offence {before : List Char} {d : Char} {f : Fault} : before ++ [d] <+: r →
    Unoffending before → offence? before d = some f → Verdict r ⟨.fault f, before ++ [d]⟩
  | missingDigit : Unoffending r → LacksDigit r → Verdict r ⟨.fault .missingDigit, r⟩
  | number : Unoffending r → ¬LacksDigit r →
    Verdict r ⟨if '.' ∈ r ∨ r.any isExponentLetter = true then .float else .int, r⟩

/-- What is made of a run depends on nothing else. -/
theorem Verdict.unique {w w' : Lexeme} (h : Verdict r w) (h' : Verdict r w') : w' = w := by
  cases h with
  | offence hd hbefore hf =>
    cases h' with
    | offence hd' hbefore' hf' =>
      obtain ⟨rfl, rfl, rfl⟩ := eq_of_offence? hd hbefore hf hd' hbefore' hf'
      rfl
    | missingDigit hr _ => cases hf.symm.trans (hr _ _ hd)
    | number hr _ => cases hf.symm.trans (hr _ _ hd)
  | missingDigit hr hlacks =>
    cases h' with
    | offence hd _ hf => cases hf.symm.trans (hr _ _ hd)
    | missingDigit _ _ => rfl
    | number _ hdigit => exact absurd hlacks hdigit
  | number hr hdigit =>
    cases h' with
    | offence hd _ hf => cases hf.symm.trans (hr _ _ hd)
    | missingDigit _ hlacks => exact absurd hlacks hdigit
    | number _ _ => rfl

/-- If no character offends, **an exponent without a digit** is what the machine ends in. -/
theorem partOf_eq_exponent_false_iff (h : Unoffending r) :
    partOf r = .exponent false ↔ LacksDigit r := by
  constructor
  · intro hpart
    have hany := partOf_eq_exponent_iff.1 ⟨false, hpart⟩
    -- the exponent starts at its first letter
    obtain ⟨e, he⟩ := Option.isSome_iff_exists.1 (List.find?_isSome.2 (List.any_eq_true.1 hany))
    obtain ⟨hletter, before, after, rfl, hbefore⟩ := List.find?_eq_some_iff_append.1 he
    rw [partOf_append_letter (by simpa using hbefore) hletter, DecimalPart.exponent.injEq] at hpart
    exact ⟨before, e, after, rfl, hletter, by simpa using hpart⟩
  · rintro ⟨before, e, after, rfl, hletter, hafter⟩
    have hbefore : before.any isExponentLetter = false := by
      -- else the letter would be the second
      have he : offence? before e = none := h before e ⟨after, by simp⟩
      simpa [offence?_of_letter hletter] using he
    rw [partOf_append_letter hbefore hletter, List.any_eq_false.2 (by simpa using hafter)]

theorem kind_partOf (h : Unoffending r) (hdigit : ¬LacksDigit r) :
    (partOf r).kind =
      if '.' ∈ r ∨ r.any isExponentLetter = true then .float else .int := by
  cases hany : r.any isExponentLetter with
  | true =>
    obtain ⟨b, hb⟩ := partOf_eq_exponent_iff.2 hany
    cases b with
    | true => rw [hb, if_pos (.inr rfl)]; rfl
    | false => exact absurd ((partOf_eq_exponent_false_iff h).1 hb) hdigit
  | false =>
    rw [partOf_of_not_any hany]
    by_cases hpoint : '.' ∈ r
    · rw [if_pos hpoint, if_pos (.inl hpoint)]; rfl
    · rw [if_neg hpoint, if_neg (by simp [hpoint])]; rfl

/-- **The machine makes of a run what is to be made of it.** -/
theorem Outcome.verdict {e : Extent} (hbefore : IsRun before) (h : Outcome before cs e) :
    Verdict (before ++ runFrom before cs) ⟨e.kind, before ++ cs.take e.length⟩ := by
  have hstarts : runFrom before cs <+: cs :=
    (List.prefix_append_right_inj before).1 (longest_runFrom hbefore cs).starts
  cases h with
  | @offence mid d f hd hmid hf =>
    have htake : cs.take (mid.length + 1) = mid ++ [d] := by
      simpa using (List.prefix_iff_eq_take.1 (hd.trans hstarts)).symm
    rw [htake, ← List.append_assoc]
    -- the offence is in the whole run, too
    refine .offence ?_ hmid hf
    rw [List.append_assoc]
    exact (List.prefix_append_right_inj before).2 hd
  | run hrun =>
    rw [← List.prefix_iff_eq_take.1 hstarts]
    by_cases hlacks : LacksDigit (before ++ runFrom before cs)
    · rw [(partOf_eq_exponent_false_iff hrun).2 hlacks]
      exact .missingDigit hrun hlacks
    · rw [kind_partOf hrun hlacks]
      exact .number hrun hlacks

/-! ### The grammar -/

theorem offence?_eq_none_iff :
    offence? r c = none ↔ ∀ a ∈ r, offence? [a] c = none := by
  simp only [offence?]
  grind

/-- Whether a character offends can be told from **each one before it alone**. -/
theorem unoffending_iff_pairwise :
    Unoffending r ↔ r.Pairwise fun a c ↦ offence? [a] c = none := by
  induction r using List.reverseRecOn with
  | nil => exact iff_of_true (along_nil _) .nil
  | append_singleton r c ih =>
    rw [unoffending_concat, ih, offence?_eq_none_iff, List.pairwise_append]
    simp

theorem unoffending_withoutSeparators : Unoffending (withoutSeparators r) ↔ Unoffending r := by
  -- an underscore does not offend, and it makes nothing behind it offend
  have hseparator (a c : Char) (h : a ≠ '_' → c ≠ '_' → offence? [a] c = none) :
      offence? [a] c = none := by
    by_cases hc : c = '_'
    · exact hc ▸ offence?_of_plain (by decide) rfl _
    · by_cases ha : a = '_'
      · subst ha
        simp [offence?, isExponentLetter]
      · exact h ha hc
  rw [unoffending_iff_pairwise, unoffending_iff_pairwise, withoutSeparators, List.pairwise_filter]
  refine ⟨fun h ↦ h.imp fun {a c} hac ↦ hseparator a c (by simpa using hac), fun h ↦ ?_⟩
  exact h.imp fun hac _ _ ↦ hac

theorem LacksDigit.withoutSeparators (h : LacksDigit r) :
    LacksDigit (Literal.withoutSeparators r) := by
  obtain ⟨before, e, after, rfl, he, hafter⟩ := h
  have hne : e ≠ '_' := by
    rintro rfl
    cases he
  refine ⟨Literal.withoutSeparators before, e, Literal.withoutSeparators after, ?_, he, ?_⟩
  · rw [Literal.withoutSeparators, List.filter_append, List.filter_cons_of_pos (by simpa using hne)]
    rfl
  · exact fun d hd ↦ hafter d (List.mem_filter.1 hd).1

/-- Characters that are neither points nor letters never offend. -/
theorem Unoffending.append {s : List Char} (h : Unoffending r)
    (hs : ∀ c ∈ s, c ≠ '.' ∧ isExponentLetter c = false) : Unoffending (r ++ s) := by
  induction s generalizing r with
  | nil => rwa [List.append_nil]
  | cons c s ih =>
    obtain ⟨⟨hpoint, hletter⟩, hs⟩ := List.forall_mem_cons.1 hs
    rw [List.append_cons]
    exact ih (unoffending_concat.2 ⟨h, offence?_of_plain hpoint hletter r⟩) hs

end Numeral

namespace Literal

open Numeral

variable {ds whole fraction : List Char}

theorem IsDigits.plain (h : IsDigits ds) : ∀ c ∈ ds, c ≠ '.' ∧ isExponentLetter c = false := by
  intro c hc
  refine ⟨?_, isExponentLetter_of_isDigit (h c hc)⟩
  rintro rfl
  cases h _ hc

theorem IsDigits.any_isExponentLetter (h : IsDigits ds) : ds.any isExponentLetter = false := by
  simpa using fun c hc ↦ (h.plain c hc).2

/-- There is no exponent in the digits before it. -/
theorem any_isExponentLetter_significand (hwhole : IsDigits whole)
    (hfraction : IsFraction fraction) : (whole ++ fraction).any isExponentLetter = false := by
  rw [List.any_append, hwhole.any_isExponentLetter, Bool.false_or]
  cases hfraction with
  | none => rfl
  | some hds => exact hds.any_isExponentLetter

theorem unoffending_significand (hwhole : IsDigits whole) (hfraction : IsFraction fraction) :
    Unoffending (whole ++ fraction) := by
  have hstart : Unoffending whole := by
    simpa using Unoffending.append (along_nil _) hwhole.plain
  cases hfraction with
  | none => rwa [List.append_nil]
  | some hds =>
    rw [List.append_cons]
    refine .append (unoffending_concat.2 ⟨hstart, ?_⟩) hds.plain
    have hpoint : '.' ∉ whole := fun hmem ↦ (hwhole.plain _ hmem).1 rfl
    rw [offence?, if_pos rfl, hwhole.any_isExponentLetter, if_neg Bool.false_ne_true, if_neg hpoint]

/-- **A spelled number offends nowhere.** -/
theorem IsFloat.unoffending (h : IsFloat ds) : Unoffending ds := by
  obtain ⟨-, hwhole, hfraction, hexponent⟩ := h
  have hstart := unoffending_significand hwhole hfraction
  rw [← List.append_assoc]
  cases hexponent with
  | none => rwa [List.append_nil]
  | some he hsign hne hds =>
    rw [List.append_cons]
    refine .append (unoffending_concat.2 ⟨hstart, ?_⟩) fun c hc ↦ ?_
    · rw [offence?_of_letter he, any_isExponentLetter_significand hwhole hfraction,
        if_neg Bool.false_ne_true]
    · rcases List.mem_append.1 hc with hc | hc
      · simp only [List.mem_cons, List.not_mem_nil, or_false] at hsign
        rcases hsign with rfl | rfl | rfl
        · cases hc
        · exact List.mem_singleton.1 hc ▸ by decide
        · exact List.mem_singleton.1 hc ▸ by decide
      · exact hds.plain c hc

/-- **A spelled number ends in a digit if it has an exponent**, so the exponent has one. -/
theorem IsFloat.not_lacksDigit (h : IsFloat ds) : ¬LacksDigit ds := by
  rintro ⟨before, e, after, heq, he, hafter⟩
  obtain @⟨whole, fraction, _, -, hwhole, hfraction, hexponent⟩ := h
  rw [← List.append_assoc] at heq
  cases hexponent with
  | none =>
    have hany := any_isExponentLetter_significand hwhole hfraction
    rw [← List.append_nil (_ ++ _), heq] at hany
    simp [he] at hany
  | @some letter sign digits _ _ hne hdigits =>
    -- the last digit stands behind every letter
    obtain ⟨init, d, rfl⟩ := (List.eq_nil_or_concat' digits).resolve_left hne
    have hd : d.isDigit = true := hdigits d (List.mem_append_right _ List.mem_cons_self)
    have hends : [d] <:+ e :: after := by
      refine List.suffix_of_suffix_length_le ?_ (List.suffix_append before _) (by simp)
      exact heq ▸ ⟨whole ++ fraction ++ letter :: (sign ++ init), by simp⟩
    rcases List.mem_cons.1 (hends.subset List.mem_cons_self) with rfl | hmem
    · cases hd.symm.trans (isDigit_of_isExponentLetter he)
    · cases hd.symm.trans (hafter d hmem)

end Literal

namespace Numeral

/-- **The grammar of numbers** is what is left when nothing is wrong with a run. -/
theorem Verdict.isFault_eq_false {w : Lexeme} (h : Verdict r w)
    (hfloat : IsFloat (withoutSeparators r)) : w.kind.isFault = false := by
  have hr : Unoffending r := unoffending_withoutSeparators.1 hfloat.unoffending
  cases h with
  | offence hd _ hf => cases hf.symm.trans (hr _ _ hd)
  | missingDigit _ hlacks => exact absurd hlacks.withoutSeparators hfloat.not_lacksDigit
  | number _ _ => dsimp only; split <;> rfl

theorem Verdict.text_eq {w : Lexeme} (h : Verdict r w) (hw : w.kind.isFault = false) :
    w.text = r := by
  cases h with
  | offence _ _ _ => cases hw
  | missingDigit _ _ => cases hw
  | number _ _ => rfl

theorem read_eq_tokenAt (hc : c.isDigit = true)
    (hradix : c = '0' → ∀ l ∈ cs.head?, radixOf? l = none) (offset : Nat) :
    Token.read offset c cs =
      Lexeme.tokenAt ⟨(decimalExtent .whole false cs).kind,
        c :: cs.take (decimalExtent .whole false cs).length⟩ offset := by
  have hextent : extent c cs = decimalExtent .whole false cs := by
    rw [Lexeme.extent_of_notMem_marks (Lexeme.notMem_marks (by decide) hc), if_pos hc,
      Lexeme.numberExtent_eq hradix]
  simp only [Token.read, hextent, Lexeme.tokenAt]

theorem reached_digit (hc : c.isDigit = true) : Reached .whole false [c] := by
  have hstart : Reached .whole false [] := ⟨rfl, rfl, along_nil _⟩
  have hnext := hstart.plain (c := c) (by rintro rfl; cases hc) (isExponentLetter_of_isDigit hc)
  rwa [if_pos hc] at hnext

theorem isRun_digit (hc : c.isDigit = true) : IsRun [c] :=
  along_concat.2 ⟨along_nil _, by simp [admits, hc]⟩

/-- **Decimal numbers are scanned as their grammar says.**

Where a text has a digit that does not announce a radix, there is a longest run of characters that
belong to numbers. The token there is what is made of that run (`Numeral.Verdict`): a fault that
ends behind the first character which offends, a fault over the whole run if its exponent lacks a
digit, and else the run as a number, which is a float if it has a point or an exponent. There is no
fault exactly if the run without its underscores is spelled as a number. So no float of a text is
found to be malformed. -/
theorem decimal_numbers :
    (∀ (offset : Nat) (c : Char) (cs : List Char), c.isDigit = true →
      (c = '0' → ∀ l ∈ cs.head?, radixOf? l = none) →
      ∃ r w, Longest r (c :: cs) ∧ Verdict r w ∧ (∀ w', Verdict r w' → w' = w) ∧
        Token.read offset c cs = w.tokenAt offset ∧
        (w.kind.isFault = false ↔ IsFloat (withoutSeparators r))) ∧
    (∀ text : String, ∀ t ∈ scan text, t.kind = .float → float t.text ≠ .error .malformed) ∧
    ∀ (p : Program) (source : SourceFile) (e : ParseError),
      (p.parseFile source).error? = some e → ∀ u, e.cause ≠ .malformedFloat u := by
  refine ⟨fun offset c cs hc hradix ↦ ?_, fun text t ht hk ↦ ?_, fun p source e he u hcause ↦ ?_⟩
  · have hverdict := (outcome_decimalExtent (reached_digit hc) cs).verdict (isRun_digit hc)
    refine ⟨_, _, longest_runFrom (isRun_digit hc) cs, hverdict, fun _ ↦ hverdict.unique,
      read_eq_tokenAt hc hradix offset, fun hfault ↦ ?_, hverdict.isFault_eq_false⟩
    rw [← hverdict.text_eq hfault]
    rcases shape_decimalExtent hc hfault with ⟨-, hdigits⟩ | ⟨-, hfloat⟩
    · exact hdigits.isFloat (withoutSeparators_ne_nil hc _)
    · exact hfloat
  · have hspells := spells_of_mem_scan ht (by simp [hk])
    rw [hk] at hspells
    exact float_ne_malformed hspells
  · have hsize := Program.cause_of_isValue he (by rw [hcause]; rfl)
    simp [hcause] at hsize

/-- A sign and underscores in an exponent, and a point behind it that offends. -/
theorem decimal_numbers_exponent :
    (∃ r w, Longest r ('2' :: "_.5e+_7;".toList) ∧ Verdict r w ∧
      Token.read 3 '2' "_.5e+_7;".toList = w.tokenAt 3 ∧ w.kind = .float ∧
      IsFloat (withoutSeparators r)) ∧
    ∃ r w, Longest r ('1' :: "e-5.0;".toList) ∧ Verdict r w ∧
      Token.read 3 '1' "e-5.0;".toList = w.tokenAt 3 ∧ w.kind = .fault .pointInExponent ∧
      ¬IsFloat (withoutSeparators r) := by
  constructor
  · obtain ⟨r, w, hlongest, hverdict, -, hread, hfloat⟩ :=
      decimal_numbers.1 3 '2' "_.5e+_7;".toList (by decide) fun h ↦ absurd h (by decide)
    have hk : w.kind = .float := by
      have hkind : (Token.read 3 '2' "_.5e+_7;".toList).kind = .float := by decide +kernel
      rwa [hread] at hkind
    exact ⟨r, w, hlongest, hverdict, hread, hk, hfloat.1 (by rw [hk]; rfl)⟩
  · obtain ⟨r, w, hlongest, hverdict, -, hread, hfloat⟩ :=
      decimal_numbers.1 3 '1' "e-5.0;".toList (by decide) fun h ↦ absurd h (by decide)
    have hk : w.kind = .fault .pointInExponent := by
      have hkind : (Token.read 3 '1' "e-5.0;".toList).kind = .fault .pointInExponent := by
        decide +kernel
      rwa [hread] at hkind
    refine ⟨r, w, hlongest, hverdict, hread, hk, fun hspelled ↦ ?_⟩
    cases hk ▸ hfloat.2 hspelled

end Numeral

end FrontEnd
