import FrontEnd.Proofs.Token.Spelling

/-!
# Line feeds in tokens

Line feeds separate tokens, and nearly no token holds one: a string literal that meets one is a
fault, and no other literal, name or sign has room for it. The exception is the rune literal, which
takes any one character between its quotes (`Token.legible_of_mem_scanFrom`). Among faults there is
one exception, too. A fault is worded without the text around it, but an escape code that is not
known is shown as it is (`Fault.oneLine_message_iff`).
-/

namespace FrontEnd

/-- A text is **on one line** if it has no line feed. -/
def OneLine (s : String) : Prop :=
  '\n' ∉ s.toList

instance (s : String) : Decidable (OneLine s) :=
  inferInstanceAs (Decidable ('\n' ∉ s.toList))

@[simp]
theorem oneLine_append {s t : String} : OneLine (s ++ t) ↔ OneLine s ∧ OneLine t := by
  rw [OneLine, String.toList_append, List.mem_append, not_or]
  rfl

@[simp]
theorem oneLine_ofList {cs : List Char} : OneLine (String.ofList cs) ↔ '\n' ∉ cs := by
  rw [OneLine, String.toList_ofList]

theorem oneLine_toString (n : Nat) : OneLine (toString n) := by
  intro h
  have hdigits : '\n' ∈ Nat.toDigits 10 n := by simpa using h
  exact absurd (Nat.isDigit_of_mem_toDigits (by decide) (by decide) hdigits) (by decide)

/-! ### Faults -/

theorem lineFeed_notMem_toDigitsCore (fuel n : Nat) {ds : List Char} (hds : '\n' ∉ ds) :
    '\n' ∉ Nat.toDigitsCore 16 fuel n ds := by
  have hdigit : ∀ d < 16, Nat.digitChar d ≠ '\n' := by decide
  induction fuel generalizing n ds with
  | zero => exact hds
  | succ fuel ih =>
    have hcons : '\n' ∉ Nat.digitChar (n % 16) :: ds :=
      List.not_mem_cons_of_ne_of_not_mem (hdigit _ (Nat.mod_lt n (by decide))).symm hds
    rw [Nat.toDigitsCore]
    split
    · exact hcons
    · exact ih _ hcons

/-- What a character is shown as has no line feed, whatever the character. -/
theorem oneLine_quoted (c : Char) : OneLine (Text.quoted c) := by
  have hbody : OneLine (Text.quotedBody c) := by
    rw [Text.quotedBody]
    split
    · decide
    split
    · decide
    split
    · decide
    split
    · decide
    rename_i hc
    split
    · decide
    split
    · decide
    split
    · have hdigits : OneLine (Text.hexDigits c.toNat) :=
        oneLine_ofList.2 (lineFeed_notMem_toDigitsCore _ _ List.not_mem_nil)
      rw [oneLine_append, oneLine_append]
      exact ⟨⟨by decide, hdigits⟩, by decide⟩
    · intro h
      have hmem : '\n' ∈ [c] := by simpa using h
      exact hc (List.mem_singleton.1 hmem).symm
  rw [Text.quoted, oneLine_append, oneLine_append]
  exact ⟨⟨by decide, hbody⟩, by decide⟩

/-- **The wording of a fault is one line**, unless it shows a line feed as an escape code. -/
theorem Fault.oneLine_message_iff (f : Fault) : OneLine f.message ↔ f ≠ .invalidEscape '\n' := by
  cases f with
  | unknownCharacter c =>
    have hmessage : OneLine (unknownCharacter c).message :=
      oneLine_append.2 ⟨by decide, oneLine_quoted c⟩
    exact iff_of_true hmessage Fault.noConfusion
  | invalidEscape code =>
    have hcode : OneLine code.toString ↔ code ≠ '\n' := by simp [OneLine, eq_comm]
    have hmessage : OneLine (invalidEscape code).message ↔ OneLine code.toString :=
      oneLine_append.trans (and_iff_right (by decide))
    rw [hmessage, hcode, ne_eq, ne_eq, invalidEscape.injEq]
  | _ => decide

namespace Token

/-! ### Scanners -/

/-- The spelling of the rune literal that holds a line feed. -/
def lineFeedRune : List Char :=
  ['\'', '\n', '\'']

theorem lineFeed_notMem_decimalExtent {part : DecimalPart} {afterLetter : Bool} {cs : List Char}
    (h : (decimalExtent part afterLetter cs).kind.isFault = false) :
    '\n' ∉ cs.take (decimalExtent part afterLetter cs).length := by
  have hgrow : ∀ {e : Extent} {c : Char} {ds : List Char}, c ≠ '\n' → '\n' ∉ ds.take e.length →
      '\n' ∉ (c :: ds).take (e.grow 1).length := by
    intro e c ds hc hds
    rw [Extent.grow_length, List.take_succ_cons]
    exact List.not_mem_cons_of_ne_of_not_mem hc.symm hds
  fun_induction decimalExtent part afterLetter cs with
  | case1 => exact List.not_mem_nil
  | case2 part afterLetter c cs hc ih =>
    refine hgrow ?_ (ih h)
    rintro rfl
    exact absurd hc (by decide)
  | case3 part afterLetter cs _ ih => exact hgrow (by decide) (ih h)
  | case4 afterLetter cs _ _ ih => exact hgrow (by decide) (ih h)
  | case5 => cases h
  | case6 => cases h
  | case7 => cases h
  | case8 afterLetter c cs _ _ _ hc part _ ih =>
    refine hgrow ?_ (ih h)
    rintro rfl
    exact absurd hc (by decide)
  | case9 part afterLetter c cs _ _ _ _ hsign ih =>
    refine hgrow ?_ (ih h)
    rintro rfl
    exact absurd (Bool.and_eq_true_iff.1 hsign).2 (by decide)
  | case10 => exact List.not_mem_nil

theorem lineFeed_notMem_takeWhile {p : Char → Bool} (hp : p '\n' = false) (cs : List Char) :
    '\n' ∉ cs.take (cs.takeWhile p).length := by
  rw [← List.prefix_iff_eq_take.1 (List.takeWhile_prefix _)]
  intro h
  exact Bool.false_ne_true (hp.symm.trans (List.all_eq_true.1 List.all_takeWhile _ h))

theorem isDigitIn_lineFeed (radix : Nat) : isDigitIn radix '\n' = false :=
  rfl

theorem lineFeed_notMem_numberExtent {c : Char} {cs : List Char}
    (h : (numberExtent c cs).kind.isFault = false) :
    '\n' ∉ cs.take (numberExtent c cs).length := by
  revert h
  fun_cases numberExtent c cs with
  | case1 r ds radix hr =>
    have hr' : r ≠ '\n' := by
      rintro rfl
      cases hr
    intro
    rw [Extent.grow_length, List.take_succ_cons]
    refine List.not_mem_cons_of_ne_of_not_mem hr'.symm (lineFeed_notMem_takeWhile ?_ ds)
    rw [isDigitIn_lineFeed]
    rfl
  | case2 => exact lineFeed_notMem_decimalExtent
  | case3 => exact lineFeed_notMem_decimalExtent

theorem lineFeed_notMem_stringExtent {cs : List Char} (h : (stringExtent cs).kind.isFault = false) :
    '\n' ∉ cs.take (stringExtent cs).length := by
  fun_induction stringExtent cs with
  | case1 => exact List.not_mem_nil
  | case2 => cases h
  | case3 => simp
  | case4 => cases h
  | case5 code ds hcode ih =>
    have hcode' : code ≠ '\n' := by
      rintro rfl
      exact absurd hcode (by decide)
    rw [Extent.grow_length, List.take_succ_cons, List.take_succ_cons]
    refine List.not_mem_cons_of_ne_of_not_mem (by decide) ?_
    exact List.not_mem_cons_of_ne_of_not_mem hcode'.symm (ih h)
  | case6 => cases h
  | case7 c ds hfeed _ _ _ ih =>
    rw [Extent.grow_length, List.take_succ_cons]
    exact List.not_mem_cons_of_ne_of_not_mem (fun hc ↦ hfeed hc.symm) (ih h)

theorem take_runeCloseExtent {cs : List Char} (h : (runeCloseExtent cs).kind.isFault = false) :
    (runeCloseExtent cs).kind = .rune ∧ cs.take (runeCloseExtent cs).length = ['\''] := by
  revert h
  fun_cases runeCloseExtent cs with
  | case1 =>
    intro h
    cases h
  | case2 => exact fun _ ↦ ⟨rfl, rfl⟩
  | case3 =>
    intro h
    cases h

/-- Behind the quote of a rune there is room for one line feed, and then for the closing quote. -/
theorem take_runeExtent_of_lineFeed {cs : List Char} (h : (runeExtent cs).kind.isFault = false)
    (hmem : '\n' ∈ cs.take (runeExtent cs).length) :
    (runeExtent cs).kind = .rune ∧ cs.take (runeExtent cs).length = ['\n', '\''] := by
  revert h hmem
  fun_cases runeExtent cs with
  | case1 =>
    intro h
    cases h
  | case2 =>
    intro h
    cases h
  | case3 =>
    intro h
    cases h
  | case4 code ds hcode =>
    intro h hmem
    have hcode' : code ≠ '\n' := by
      rintro rfl
      exact absurd hcode (by decide)
    rw [Extent.grow_length, List.take_succ_cons, List.take_succ_cons,
      (take_runeCloseExtent h).2] at hmem
    simp [hcode'.symm] at hmem
  | case5 =>
    intro h
    cases h
  | case6 c ds =>
    intro h hmem
    obtain ⟨hkind, htake⟩ := take_runeCloseExtent h
    rw [Extent.grow_length, List.take_succ_cons, htake] at hmem ⊢
    have hc : '\n' = c := by simpa using hmem
    exact ⟨hkind, by rw [hc]⟩

/-- Of all spellings that are no fault, one holds a line feed. -/
theorem extent_eq_of_lineFeed {c : Char} {cs : List Char} (h : (extent c cs).kind.isFault = false)
    (hmem : '\n' ∈ c :: cs.take (extent c cs).length) :
    (extent c cs).kind = .rune ∧ c :: cs.take (extent c cs).length = lineFeedRune := by
  have hc : c ≠ '\n' := by
    rintro rfl
    have hfault : extent '\n' cs = ⟨.fault (.unknownCharacter '\n'), 0⟩ := by
      have hstart : isNameStart '\n' = false := by decide
      simp [extent, opensComment, Sign.ofChar?, Sign.all, Sign.char, hstart]
    rw [hfault] at h
    cases h
  have htail : '\n' ∈ cs.take (extent c cs).length :=
    (List.mem_cons.1 hmem).resolve_left (Ne.symm hc)
  clear hmem
  revert h htail
  fun_cases extent c cs with
  | case1 =>
    intro h
    cases h
  | case2 =>
    intro _ htail
    cases htail
  | case3 =>
    intro h htail
    exact absurd htail (lineFeed_notMem_numberExtent h)
  | case4 _ _ _ hquote =>
    intro h htail
    obtain ⟨hkind, htake⟩ := take_runeExtent_of_lineFeed h htail
    exact ⟨hkind, by rw [htake, hquote, lineFeedRune]⟩
  | case5 =>
    intro h htail
    exact absurd htail (lineFeed_notMem_stringExtent h)
  | case6 =>
    intro _ htail
    exact absurd htail (lineFeed_notMem_takeWhile (by decide) cs)
  | case7 =>
    intro h
    cases h

/-- **A token is legible** if it has no line feed, or else is the rune of the line feed. Nothing is
asked of a fault, which is never shown by its spelling. -/
def Legible (t : Token) : Prop :=
  t.kind.isFault = false → '\n' ∈ t.text → t.kind = .rune ∧ t.text = lineFeedRune

/-- Scanned tokens are legible. -/
theorem legible_of_mem_scanFrom {offset : Nat} {cs : List Char} {t : Token}
    (ht : t ∈ scanFrom offset cs) : t.Legible := by
  have hfinish : ∀ stop, (finishAt stop).Legible := fun _ _ hmem ↦ absurd hmem List.not_mem_nil
  fun_induction scanFrom offset cs with
  | case1 => exact List.mem_singleton.1 ht ▸ hfinish _
  | case2 offset cs gap start c ds hcs s hs =>
    rcases List.mem_cons.1 ht with rfl | ht
    · exact fun h ↦ absurd (hs.symm.trans h) (by decide)
    · exact List.mem_singleton.1 ht ▸ hfinish _
  | case3 offset cs gap start c ds hcs s hs ih =>
    rcases List.mem_cons.1 ht with rfl | ht
    · exact extent_eq_of_lineFeed
    · exact ih ht

/-- The spelling of a legible token that is neither a fault nor a rune is on one line. -/
theorem Legible.oneLine_word {t : Token} (h : t.Legible) (hfault : t.kind.isFault = false)
    (hrune : t.kind ≠ .rune) : OneLine t.word :=
  oneLine_ofList.2 fun hmem ↦ hrune (h hfault hmem).1

end Token

end FrontEnd
