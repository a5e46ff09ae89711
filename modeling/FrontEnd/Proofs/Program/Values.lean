import FrontEnd.Proofs.Program.Faults

/-!
# Values that are blamed

The value of a literal is read when the parser meets its token, and reading it may fail: the number
may be too large, or the text may not be of the shape that the reader of the value asks for. The
second never happens. What is said of a value is said of a token of the file
(`Program.exists_constantOf?_of_parseFile`), and tokens of a file are spelled as their kinds ask for
(`Token.Kind.Spells`), so all that is ever blamed is the size of a number
(`Program.cause_of_isValue`).
-/

namespace FrontEnd

open Literal

/-- **What can be wrong with a literal**, by its kind. -/
theorem Expr.constantOf?_error_cases {t : Token} {cause : ParseError.Cause}
    (h : constantOf? t = some (.error cause)) :
    t.kind = .int ∧ cause = .integerTooLarge ∨
      t.kind = .int ∧ integer t.text = .error .malformed ∨
      t.kind = .float ∧ cause = .floatOutOfRange ∨
      t.kind = .float ∧ float t.text = .error .malformed ∨
      t.kind = .rune ∧ rune? t.text = none := by
  rw [constantOf?] at h
  split at h
  · rename_i hk
    split at h
    · cases h
    · cases h
      exact .inl ⟨hk, rfl⟩
    · rename_i hmalformed
      exact .inr (.inl ⟨hk, hmalformed⟩)
  · rename_i hk
    split at h
    · cases h
    · cases h
      exact .inr (.inr (.inl ⟨hk, rfl⟩))
    · rename_i hmalformed
      exact .inr (.inr (.inr (.inl ⟨hk, hmalformed⟩)))
  · rename_i hk
    split at h
    · cases h
    · rename_i hnone
      exact .inr (.inr (.inr (.inr ⟨hk, hnone⟩)))
  all_goals cases h

/-- A literal that is spelled as its kind asks for has a value, or a number that is too large. -/
theorem Token.cause_of_spells {t : Token} (ht : t.kind.Spells t.text) {cause : ParseError.Cause}
    (h : Expr.constantOf? t = some (.error cause)) :
    cause = .integerTooLarge ∨ cause = .floatOutOfRange := by
  rcases Expr.constantOf?_error_cases h with
    ⟨-, rfl⟩ | ⟨hk, herror⟩ | ⟨-, rfl⟩ | ⟨hk, herror⟩ | ⟨hk, hnone⟩
  · exact .inl rfl
  · rw [hk] at ht
    rw [integer_eq ht] at herror
    split at herror <;> cases herror
  · exact .inr rfl
  · rw [hk] at ht
    exact absurd herror (float_ne_malformed ht)
  · rw [hk, Kind.Spells, hnone] at ht
    cases ht

namespace Program

variable {p : Program} {source : SourceFile} {e : ParseError}

/-- **A value that is blamed** is that of a literal in the file. -/
theorem exists_constantOf?_of_parseFile (h : (p.parseFile source).error? = some e)
    (hvalue : e.cause.isValue = true) :
    ∃ t ∈ Token.scan source.text, e.span = t.span ∧ Expr.constantOf? t = some (.error e.cause) := by
  obtain ⟨⟨rest, lastStop⟩, ⟨ts, hts, -⟩, hblames⟩ := exists_blames_of_parseFile h
  have hts : Token.scan source.text = ts ++ rest := hts
  cases rest with
  | nil => cases hblames.constantOf?_eq hvalue
  | cons t rest =>
    exact ⟨t, hts ▸ List.mem_append_right _ List.mem_cons_self, hblames.span_eq,
      hblames.constantOf?_eq hvalue⟩

/-- **Nothing is wrong with the literals of a file but the size of their numbers.** -/
theorem cause_of_isValue (h : (p.parseFile source).error? = some e)
    (hvalue : e.cause.isValue = true) :
    e.cause = .integerTooLarge ∨ e.cause = .floatOutOfRange := by
  obtain ⟨t, ht, -, hconstant⟩ := exists_constantOf?_of_parseFile h hvalue
  refine Token.cause_of_spells (Token.spells_of_mem_scan ht fun hk ↦ ?_) hconstant
  rw [Expr.constantOf?, hk] at hconstant
  cases hconstant

end Program

end FrontEnd
