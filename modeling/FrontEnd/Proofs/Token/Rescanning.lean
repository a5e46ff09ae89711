import FrontEnd.Proofs.Token.Joining

/-!
# Tokens by themselves

What a token is depends on its own text alone, and where it ends does not depend on what made it end
there: a blank behind its text does as well (`Token.extent_take_append`). So every token that is no
fault is a lexeme that is scanned back (`Token.lexes_of_mem_scanFrom`), whichever text it comes
from, and the words of a text can be written down again with single blanks between them.
-/

namespace FrontEnd.Token

variable {c : Char} {cs ds rest : List Char}

/-! ### Scanners that are stopped by a blank -/

theorem takeWhile_take_append {p : Char → Bool} (hp : p ' ' = false) (hrest : Ends rest)
    (cs : List Char) :
    (cs.take (cs.takeWhile p).length ++ rest).takeWhile p = cs.takeWhile p := by
  rw [← List.prefix_iff_eq_take.1 (List.takeWhile_prefix p)]
  exact (Literal.takeWhile_dropWhile_append (List.all_eq_true.1 List.all_takeWhile)
    (hrest.of_eq_false hp)).1

theorem forall_mem_head?_take_append {p : Char → Prop} (hcs : ∀ d ∈ cs.head?, p d)
    (hrest : ∀ d ∈ rest.head?, p d) (n : Nat) : ∀ d ∈ (cs.take n ++ rest).head?, p d := by
  refine forall_mem_head?_append (fun d hd ↦ hcs d ?_) hrest
  rw [List.head?_take] at hd
  split at hd
  · cases hd
  · exact hd

theorem radixExtent_take_append (hrest : Ends rest) (radix : Nat) (cs : List Char) :
    radixExtent radix (cs.take (radixExtent radix cs).length ++ rest) = radixExtent radix cs := by
  have hrun := takeWhile_take_append (p := fun c ↦ isDigitIn radix c || c == '_') rfl hrest cs
  dsimp only [radixExtent]
  rw [hrun]

theorem decimalExtent_take_append (hrest : Ends rest) (part : DecimalPart) (afterLetter : Bool)
    (cs : List Char) :
    decimalExtent part afterLetter (cs.take (decimalExtent part afterLetter cs).length ++ rest) =
      decimalExtent part afterLetter cs := by
  have hstop (part : DecimalPart) (afterLetter : Bool) :
      decimalExtent part afterLetter rest = ⟨part.kind, 0⟩ :=
    @Lexeme.decimalExtent_append [] part afterLetter rest rfl hrest
  fun_induction decimalExtent part afterLetter cs with
  | case1 part afterLetter => exact hstop part afterLetter
  | case10 part afterLetter => exact hstop part afterLetter
  -- in all other cases a character is taken, and it is there again
  | _ => simp_all [decimalExtent]

theorem numberExtent_take_append (hrest : Ends rest) (c : Char) (cs : List Char) :
    numberExtent c (cs.take (numberExtent c cs).length ++ rest) = numberExtent c cs := by
  rcases Lexeme.numberExtent_cases c cs with ⟨r, ds, radix, rfl, rfl, hr, heq⟩ | ⟨hradix, heq⟩
  · rw [heq, Extent.grow_length, List.take_succ_cons, List.cons_append, numberExtent, hr]
    exact congrArg (Extent.grow 1) (radixExtent_take_append hrest radix ds)
  · rw [heq, Lexeme.numberExtent_eq, decimalExtent_take_append hrest]
    intro hzero
    exact forall_mem_head?_take_append (hradix hzero) (fun r hr ↦ hrest r hr ▸ rfl) _

theorem nameExtent_take_append (hrest : Ends rest) (c : Char) (cs : List Char) :
    nameExtent c (cs.take (nameExtent c cs).length ++ rest) = nameExtent c cs := by
  have hrun := takeWhile_take_append (p := isNamePart) (by decide) hrest cs
  dsimp only [nameExtent]
  rw [hrun]

/-! ### Scanners that are stopped by a quote -/

theorem runeExtent_take (h : (runeExtent cs).kind.isFault = false) :
    runeExtent (cs.take (runeExtent cs).length) = runeExtent cs := by
  revert h
  fun_cases runeExtent cs with
  | case4 code cs hcode =>
    intro h
    rcases runeCloseExtent_cases cs with hfault | ⟨ds, rfl, heq⟩
    · cases hfault.symm.trans h
    · rw [heq]
      exact if_pos hcode
  | case6 c cs hquote hlone hescape =>
    intro h
    rcases runeCloseExtent_cases cs with hfault | ⟨ds, rfl, heq⟩
    · cases hfault.symm.trans h
    · rw [heq]
      exact runeExtent.eq_5 c ['\''] hquote (fun _ h ↦ absurd h (List.cons_ne_nil _ _))
        (fun _ _ hc _ ↦ hescape _ _ hc rfl)
  | _ =>
    intro h
    cases h

theorem stringExtent_take (h : (stringExtent cs).kind.isFault = false) :
    stringExtent (cs.take (stringExtent cs).length) = stringExtent cs := by
  fun_induction stringExtent cs with
  | case3 => rfl
  | case5 code cs hcode ih =>
    rw [Extent.grow_length, List.take_succ_cons, List.take_succ_cons, stringExtent, if_pos hcode,
      ih h]
  | case7 c cs hfeed hquote hlone hescape ih =>
    have hc : c ≠ '\\' := by
      cases cs with
      | nil => exact fun hc ↦ hlone hc rfl
      | cons d cs => exact fun hc ↦ hescape d cs hc rfl
    rw [Extent.grow_length, List.take_succ_cons, stringExtent.eq_6, ih h]
    · exact hfeed
    · exact hquote
    · exact fun h ↦ absurd h hc
    · exact fun _ _ h ↦ absurd h hc
  | _ => cases h

/-! ### Tokens -/

theorem opensComment_take_append (h : opensComment c cs = false) (hrest : Ends rest) (n : Nat) :
    opensComment c (cs.take n ++ rest) = false := by
  rw [opensComment, Bool.and_eq_false_iff, beq_eq_false_iff_ne, beq_eq_false_iff_ne] at h ⊢
  refine h.imp_right fun hstar hhead ↦ ?_
  exact forall_mem_head?_take_append (p := (· ≠ '*')) (fun d hd hstar' ↦ hstar (hstar' ▸ hd))
    (fun d hd ↦ hrest d hd ▸ by decide) n '*' hhead rfl

/-- **A token is scanned back from its own text**, whether a blank or nothing follows it. -/
theorem extent_take_append (h : (extent c cs).kind.isFault = false) (hrest : Ends rest) :
    extent c (cs.take (extent c cs).length ++ rest) = extent c cs := by
  rw [extent, opensComment_take_append (opensComment_of_extent h) hrest,
    if_neg Bool.false_ne_true]
  -- which scanner it is depends on the first character, so it is the same one again
  revert h
  fun_cases extent c cs with
  | case1 hopens =>
    intro h
    cases h
  | case2 hopens s hs =>
    intro _
    rw [hs]
  | case3 hopens hs hdigit =>
    intro _
    rw [hs]
    dsimp only
    rw [if_pos hdigit, numberExtent_take_append hrest]
  | case4 hopens hs hdigit hquote =>
    intro h
    have htake := runeExtent_take h
    rw [hs]
    dsimp only
    rw [if_neg hdigit, if_pos hquote, runeExtent_append (by rw [htake, h]), htake]
  | case5 hopens hs hdigit hquote hdouble =>
    intro h
    have htake := stringExtent_take h
    rw [hs]
    dsimp only
    rw [if_neg hdigit, if_neg hquote, if_pos hdouble, stringExtent_append (by rw [htake, h]), htake]
  | case6 hopens hs hdigit hquote hdouble hname =>
    intro _
    rw [hs]
    dsimp only
    rw [if_neg hdigit, if_neg hquote, if_neg hdouble, if_pos hname, nameExtent_take_append hrest]
  | case7 hopens hs hdigit hquote hdouble hname =>
    intro h
    cases h

/-! ### Streams -/

/-- No blank is left where a token is due. -/
theorem isBlank_of_drop_triviaLength (h : cs.drop (triviaLength cs) = c :: ds) :
    isBlank c = false := by
  fun_induction triviaLength cs with
  | case1 cs ih =>
    rw [drop_add_two_add] at h
    exact ih h
  | case2 cs n hn ih =>
    rw [drop_add_two_add] at h
    exact ih h
  | case3 cs hn =>
    obtain ⟨rfl, -⟩ := List.cons.inj h
    rfl
  | case4 d cs hline hblock hblank ih => exact ih h
  | case5 d cs hline hblock hblank =>
    obtain ⟨rfl, -⟩ := List.cons.inj h
    exact Bool.eq_false_iff.2 hblank
  | case6 => cases h

/-- A slash is a token by itself, unless it opens a comment. -/
theorem length_extent_slash (h : (extent '/' cs).kind.isFault = false) :
    (extent '/' cs).length = 0 := by
  rw [extent] at h ⊢
  split at h
  · cases h
  · rename_i hopens
    rw [if_neg hopens]
    rfl

/-- **A token is a lexeme by itself**: without its place it is scanned back wherever a blank or
nothing follows. -/
theorem lexes_read (hc : isBlank c = false) (h : (extent c cs).kind.isFault = false)
    (offset : Nat) : (read offset c cs).lexeme.Lexes := by
  refine Lexeme.lexes_of_extent hc ?_ h fun rest hrest ↦ ?_
  · -- a slash and what follows it could be taken for a comment
    rintro rfl
    rw [length_extent_slash h, List.take_zero]
  · rw [extent_take_append h hrest, List.length_take_of_le (length_extent_le c cs)]
    rfl

/-- **Every token but the end mark has been read** somewhere, and not where a blank stands. -/
theorem exists_read_of_mem_scanFrom {offset : Nat} {t : Token} (ht : t ∈ scanFrom offset cs)
    (hfinish : t.kind ≠ .finish) : ∃ start c ds, t = read start c ds ∧ isBlank c = false := by
  fun_induction scanFrom offset cs with
  | case1 offset cs gap start hdrop =>
    obtain rfl := List.mem_singleton.1 ht
    exact absurd rfl hfinish
  | case2 offset cs gap start c ds hdrop u hu =>
    rcases List.mem_cons.1 ht with rfl | ht
    · exact ⟨start, c, ds, rfl, isBlank_of_drop_triviaLength hdrop⟩
    · obtain rfl := List.mem_singleton.1 ht
      exact absurd rfl hfinish
  | case3 offset cs gap start c ds hdrop u hu ih =>
    rcases List.mem_cons.1 ht with rfl | ht
    · exact ⟨start, c, ds, rfl, isBlank_of_drop_triviaLength hdrop⟩
    · exact ih ht

theorem lexes_of_mem_scanFrom {offset : Nat} {t : Token} (ht : t ∈ scanFrom offset cs)
    (hfinish : t.kind ≠ .finish) (hfault : t.kind.isFault = false) : t.lexeme.Lexes := by
  obtain ⟨start, c, ds, rfl, hc⟩ := exists_read_of_mem_scanFrom ht hfinish
  exact lexes_read hc hfault start

/-- **A text that is one token by itself** is that token before a blank, too. -/
theorem lexes_of_map_lexeme_scanList {w : Lexeme} (hfinish : w.kind ≠ .finish)
    (hfault : w.kind.isFault = false)
    (h : (scanList w.text).map lexeme = [w, Lexeme.finish]) : w.Lexes := by
  obtain ⟨t, ts, hscan, rfl, -⟩ := List.map_eq_cons_iff.1 h
  have ht : t ∈ scanFrom 0 t.lexeme.text := by
    rw [show scanFrom 0 t.lexeme.text = t :: ts from hscan]
    exact List.mem_cons_self
  exact lexes_of_mem_scanFrom ht hfinish hfault

/-- **The words of a text can be written down again.** If they are put in a row with single blanks
between them, and the row is scanned, the same words come out and then the end mark. -/
theorem map_lexeme_scan_intercalate (s : String) (h : ∀ w ∈ scan s, w.kind.isFault = false) :
    ∃ words, scan s = words ++ [finishAt s.utf8ByteSize] ∧ (∀ w ∈ words, w.kind ≠ .finish) ∧
      (scan (" ".intercalate (words.map word))).map lexeme =
        words.map lexeme ++ [Lexeme.finish] := by
  obtain ⟨words, hscan, hwords⟩ := exists_words h
  have hlexes : ∀ w ∈ words.map lexeme, w.Lexes := by
    refine List.forall_mem_map.2 fun w hw ↦ ?_
    have hmem : w ∈ scan s := hscan ▸ List.mem_append_left _ hw
    exact lexes_of_mem_scanFrom hmem (hwords w hw) (h w hmem)
  obtain ⟨ts, hts, hlexemes⟩ := exists_scanFrom_spaced hlexes 0
  have htext : (" ".intercalate (words.map word)).toList = Lexeme.spaced (words.map lexeme) := by
    rw [String.toList_intercalate, Lexeme.spaced, List.map_map, List.map_map]
    exact congrArg _ (List.map_congr_left fun w _ ↦ String.toList_ofList)
  refine ⟨words, hscan, hwords, ?_⟩
  rw [scan, htext, scanList, hts, List.map_append, hlexemes]
  rfl

/-- Numbers, a rune, a string and a name that stand close together, with comments between them. -/
theorem map_lexeme_scan_intercalate_close :
    (∀ w ∈ scan "0x_f/**/1.e+5'\\''é-//\n/\"\\\"\"", w.kind.isFault = false) ∧
      ∃ words, scan "0x_f/**/1.e+5'\\''é-//\n/\"\\\"\"" = words ++ [finishAt 28] ∧
        (scan (" ".intercalate (words.map word))).map lexeme =
          words.map lexeme ++ [Lexeme.finish] := by
  have hfault : ∀ w ∈ scan "0x_f/**/1.e+5'\\''é-//\n/\"\\\"\"", w.kind.isFault = false := by
    decide +kernel
  obtain ⟨words, hscan, -, hagain⟩ := map_lexeme_scan_intercalate _ hfault
  exact ⟨hfault, words, hscan, hagain⟩

end FrontEnd.Token
