import FrontEnd.Proofs.Token.Lexemes
import FrontEnd.Proofs.Token.LineFeeds
import FrontEnd.Proofs.Token.Tiling

/-!
# Scanning texts that are joined by a line feed

No token and no comment of a text without faults reaches over a line feed that is put behind it: a
line comment ends there, and everything else that is still open at the end of a text is a fault. So
two texts with a line feed between them are scanned like the first and then the second
(`Token.scan_joined`). The end mark of the first is gone, and the tokens of the second stand as many
bytes further on as there are in front of it (`Token.scanFrom_shift`).
-/

namespace FrontEnd.Token

variable {c : Char} {cs ds : List Char}

/-! ### Offsets -/

@[simp]
theorem shift_kind (k : Nat) (t : Token) : (t.shift k).kind = t.kind :=
  rfl

@[simp]
theorem shift_text (k : Nat) (t : Token) : (t.shift k).text = t.text :=
  rfl

@[simp]
theorem shift_span (k : Nat) (t : Token) : (t.shift k).span = t.span.shift k :=
  rfl

/-- A token is read in the same way wherever it stands. -/
theorem read_shift (k offset : Nat) (c : Char) (cs : List Char) :
    read (offset + k) c cs = (read offset c cs).shift k := by
  rw [read, read, shift]
  dsimp only [Span.shift]
  rw [Nat.add_right_comm]

/-- **Where a text starts makes no difference** but for the places of its tokens. -/
theorem scanFrom_shift (k offset : Nat) (cs : List Char) :
    scanFrom (offset + k) cs = (scanFrom offset cs).map (shift k) := by
  fun_induction scanFrom offset cs with
  | case1 offset cs gap start hdrop =>
    rw [scanFrom_eq_scanWord, show cs.drop (triviaLength cs) = [] from hdrop, Nat.add_right_comm]
    rfl
  | case2 offset cs gap start c ds hdrop t hfault =>
    rw [scanFrom_eq_scanWord, show cs.drop (triviaLength cs) = c :: ds from hdrop,
      Nat.add_right_comm, scanWord, read_shift]
    exact if_pos hfault
  | case3 offset cs gap start c ds hdrop t hfault ih =>
    rw [scanFrom_eq_scanWord, show cs.drop (triviaLength cs) = c :: ds from hdrop,
      Nat.add_right_comm, scanWord, read_shift]
    exact (if_neg hfault).trans (congrArg _ ih)

/-! ### Trivia -/

/-- A run of characters that are no line feeds ends with the text or with the line feed. -/
theorem takeWhile_append_lineFeed {p : Char → Bool} (hp : p '\n' = false) (cs ds : List Char) :
    (cs ++ '\n' :: ds).takeWhile p = cs.takeWhile p := by
  induction cs with
  | nil => rw [List.nil_append, List.takeWhile_cons, hp, List.takeWhile_nil]; rfl
  | cons c cs ih => rw [List.cons_append, List.takeWhile_cons, List.takeWhile_cons, ih]

/-- A comment that has been closed does not depend on what comes behind it. -/
theorem blockCommentLength?_append {n : Nat} (h : blockCommentLength? cs = some n)
    (ds : List Char) : blockCommentLength? (cs ++ ds) = some n := by
  fun_induction blockCommentLength? cs generalizing n with
  | case1 => exact h
  | case2 c cs hopen ih =>
    obtain ⟨m, hm, rfl⟩ := Option.map_eq_some_iff.1 h
    rw [List.cons_append, blockCommentLength?.eq_def]
    split
    · rename_i heq
      obtain ⟨rfl, hcs⟩ := List.cons.inj heq
      cases cs with
      | nil => cases hm
      | cons d cs =>
        obtain ⟨rfl, -⟩ := List.cons.inj hcs
        exact absurd rfl (hopen cs rfl)
    · rename_i heq
      obtain ⟨rfl, rfl⟩ := List.cons.inj heq
      rw [ih hm]
      rfl
    · rename_i heq
      cases heq
  | case3 => cases h

/-- A blank is passed over by itself. -/
theorem triviaLength_blank (hc : isBlank c = true) (cs : List Char) :
    triviaLength (c :: cs) = triviaLength cs + 1 := by
  have hslash : c ≠ '/' := by
    rintro rfl
    cases hc
  rw [triviaLength.eq_3]
  · exact if_pos hc
  · exact fun _ h ↦ absurd h hslash
  · exact fun _ h ↦ absurd h hslash

theorem drop_add_two_add (c d : Char) (cs : List Char) (n m : Nat) :
    (c :: d :: cs).drop (n + 2 + m) = (cs.drop n).drop m := by
  rw [List.drop_drop, Nat.add_right_comm]
  rfl

/-- **A line feed behind a text leaves its trivia alone**: those that reach up to the end of the
text go on behind the line feed, and all others end where they did, unless a comment is left
open. -/
theorem triviaLength_append
    (h : ∀ c ds, cs.drop (triviaLength cs) = c :: ds → opensComment c ds = false) (es : List Char) :
    triviaLength (cs ++ '\n' :: es) =
      if cs.drop (triviaLength cs) = [] then cs.length + 1 + triviaLength es
      else triviaLength cs := by
  fun_induction triviaLength cs with
  | case1 ds ih =>
    have hle : lineCommentLength ds ≤ ds.length := (List.takeWhile_sublist _).length_le
    have hline : lineCommentLength (ds ++ '\n' :: es) = lineCommentLength ds :=
      congrArg List.length (takeWhile_append_lineFeed rfl ds es)
    rw [drop_add_two_add] at h ⊢
    rw [List.cons_append, List.cons_append, triviaLength.eq_1, hline,
      List.drop_append_of_le_length hle, ih h, List.length_drop]
    simp only [List.length_cons]
    split <;> omega
  | case2 ds n hn ih =>
    obtain ⟨body, rest, hds, hlength, -⟩ := eq_append_of_blockCommentLength? hn
    have hle : n ≤ ds.length := by simp [hds, hlength]
    rw [drop_add_two_add] at h ⊢
    rw [List.cons_append, List.cons_append, triviaLength.eq_2, blockCommentLength?_append hn]
    dsimp only
    rw [List.drop_append_of_le_length hle, ih h, List.length_drop]
    simp only [List.length_cons]
    split <;> omega
  | case3 ds hn => cases h _ _ rfl
  | case4 c ds hline hblock hblank ih =>
    rw [List.drop_succ_cons] at h ⊢
    rw [List.cons_append, triviaLength_blank hblank, ih h, List.length_cons]
    split <;> omega
  | case5 c ds hline hblock hblank =>
    rw [List.drop_zero, if_neg (List.cons_ne_nil _ _)]
    refine triviaLength_eq_zero (Bool.eq_false_iff.2 hblank) fun hc d hd ↦ ?_
    cases ds with
    | nil =>
      obtain rfl := Option.some.inj hd
      decide
    | cons e ds =>
      obtain rfl := Option.some.inj hd
      exact ⟨fun he ↦ hline ds hc (he ▸ rfl), fun he ↦ hblock ds hc (he ▸ rfl)⟩
  | case6 => 
    rw [List.nil_append, triviaLength_blank rfl, List.drop_nil, if_pos rfl, List.length_nil]
    omega

/-! ### Tokens -/

theorem decimalExtent_append_lineFeed (part : DecimalPart) (afterLetter : Bool)
    (cs ds : List Char) :
    decimalExtent part afterLetter (cs ++ '\n' :: ds) = decimalExtent part afterLetter cs := by
  fun_induction decimalExtent part afterLetter cs with
  | case1 part afterLetter => cases afterLetter <;> rfl
  | _ =>
    rw [List.cons_append, decimalExtent.eq_def]
    simp_all

/-- A number ends in front of a line feed. -/
theorem numberExtent_append_lineFeed (c : Char) (cs ds : List Char) :
    numberExtent c (cs ++ '\n' :: ds) = numberExtent c cs := by
  fun_cases numberExtent c cs with
  | case1 r cs radix hr =>
    have hrun : radixExtent radix (cs ++ '\n' :: ds) = radixExtent radix cs := by
      rw [radixExtent, radixExtent, takeWhile_append_lineFeed rfl]
    rw [List.cons_append, numberExtent, hr]
    exact congrArg (Extent.grow 1) hrun
  | case2 r cs hr =>
    rw [List.cons_append, numberExtent, hr]
    exact decimalExtent_append_lineFeed _ _ (r :: cs) ds
  | case3 c cs hzero =>
    rw [Lexeme.numberExtent_eq, decimalExtent_append_lineFeed]
    intro hc r hr
    cases cs with
    | nil =>
      obtain rfl := Option.some.inj hr
      rfl
    | cons d cs => exact absurd rfl (hzero d cs hc)

theorem runeCloseExtent_append (h : (runeCloseExtent cs).kind.isFault = false) (ds : List Char) :
    runeCloseExtent (cs ++ ds) = runeCloseExtent cs := by
  cases cs with
  | nil => cases h
  | cons c cs => rfl

/-- A rune that is closed does not depend on what comes behind it. -/
theorem runeExtent_append (h : (runeExtent cs).kind.isFault = false) (ds : List Char) :
    runeExtent (cs ++ ds) = runeExtent cs := by
  revert h
  fun_cases runeExtent cs with
  | case1 =>
    intro h
    cases h
  | case2 => exact fun _ ↦ rfl
  | case3 =>
    intro h
    cases h
  | case4 code cs hcode =>
    intro h
    rw [List.cons_append, List.cons_append, runeExtent, if_pos hcode, runeCloseExtent_append h]
  | case5 =>
    intro h
    cases h
  | case6 c cs hquote hlone hescape =>
    intro h
    have hc : c ≠ '\\' := by
      cases cs with
      | nil => exact fun hc ↦ hlone hc rfl
      | cons d cs => exact fun hc ↦ hescape d cs hc rfl
    rw [List.cons_append, runeExtent.eq_5, runeCloseExtent_append h]
    · exact hquote
    · exact fun h ↦ absurd h hc
    · exact fun _ _ h ↦ absurd h hc

/-- Nor does a string that is closed. -/
theorem stringExtent_append (h : (stringExtent cs).kind.isFault = false) (ds : List Char) :
    stringExtent (cs ++ ds) = stringExtent cs := by
  fun_induction stringExtent cs with
  | case1 => cases h
  | case2 => cases h
  | case3 => rfl
  | case4 => cases h
  | case5 code cs hcode ih =>
    rw [List.cons_append, List.cons_append, stringExtent, if_pos hcode, ih h]
  | case6 => cases h
  | case7 c cs hfeed hquote hlone hescape ih =>
    have hc : c ≠ '\\' := by
      cases cs with
      | nil => exact fun hc ↦ hlone hc rfl
      | cons d cs => exact fun hc ↦ hescape d cs hc rfl
    rw [List.cons_append, stringExtent.eq_6, ih h]
    · exact hfeed
    · exact hquote
    · exact fun h ↦ absurd h hc
    · exact fun _ _ h ↦ absurd h hc

/-- Whether a slash opens a comment is told by the character behind it, and a line feed opens
none. -/
theorem opensComment_append_lineFeed (c : Char) (cs ds : List Char) :
    opensComment c (cs ++ '\n' :: ds) = opensComment c cs := by
  cases cs <;> rfl

/-- Where a comment opens instead, there is a fault. -/
theorem opensComment_of_extent (h : (extent c cs).kind.isFault = false) :
    opensComment c cs = false := by
  rw [extent] at h
  split at h
  · cases h
  · rename_i hopens
    exact Bool.eq_false_iff.2 hopens

/-- **A token that is no fault ends before the line feed** behind a text. -/
theorem extent_append_lineFeed (h : (extent c cs).kind.isFault = false) (ds : List Char) :
    extent c (cs ++ '\n' :: ds) = extent c cs := by
  rw [extent, opensComment_append_lineFeed, opensComment_of_extent h, if_neg Bool.false_ne_true]
  revert h
  fun_cases extent c cs with
  | case1 hopens =>
    intro h
    cases h
  | case2 hopens s hs =>
    intro _
    rw [hs]
  | case3 hopens hs hdigit =>
    intro _
    rw [hs]
    dsimp only
    rw [if_pos hdigit, numberExtent_append_lineFeed]
  | case4 hopens hs hdigit hquote =>
    intro h
    rw [hs]
    dsimp only
    rw [if_neg hdigit, if_pos hquote, runeExtent_append h]
  | case5 hopens hs hdigit hquote hdouble =>
    intro h
    rw [hs]
    dsimp only
    rw [if_neg hdigit, if_neg hquote, if_pos hdouble, stringExtent_append h]
  | case6 hopens hs hdigit hquote hdouble hname =>
    intro _
    rw [hs]
    dsimp only
    rw [if_neg hdigit, if_neg hquote, if_neg hdouble, if_pos hname, nameExtent, nameExtent,
      takeWhile_append_lineFeed (by decide)]
  | case7 hopens hs hdigit hquote hdouble hname =>
    intro h
    cases h

theorem length_runeCloseExtent_le (cs : List Char) : (runeCloseExtent cs).length ≤ cs.length := by
  fun_cases runeCloseExtent cs <;> simp

theorem length_runeExtent_le (cs : List Char) : (runeExtent cs).length ≤ cs.length := by
  fun_cases runeExtent cs <;> simp [length_runeCloseExtent_le]

theorem length_stringExtent_le (cs : List Char) : (stringExtent cs).length ≤ cs.length := by
  fun_induction stringExtent cs <;> simp [*]

theorem length_numberExtent_le (c : Char) (cs : List Char) :
    (numberExtent c cs).length ≤ cs.length := by
  fun_cases numberExtent c cs with
  | case1 r cs radix _ => exact Nat.succ_le_succ (List.takeWhile_sublist _).length_le
  | case2 => exact Lexeme.length_decimalExtent_le _ _ _
  | case3 => exact Lexeme.length_decimalExtent_le _ _ _

/-- No token reaches over the end of a text. -/
theorem length_extent_le (c : Char) (cs : List Char) : (extent c cs).length ≤ cs.length := by
  fun_cases extent c cs with
  | case1 => exact Nat.le_refl _
  | case2 => exact Nat.zero_le _
  | case3 => exact length_numberExtent_le c cs
  | case4 => exact length_runeExtent_le cs
  | case5 => exact length_stringExtent_le cs
  | case6 => exact (List.takeWhile_sublist _).length_le
  | case7 => exact Nat.zero_le _

/-! ### Texts -/

/-- **A token that is no fault** is read in the same way with a line feed and more behind the
text. -/
theorem read_append_lineFeed (h : (extent c cs).kind.isFault = false) (offset : Nat)
    (ds : List Char) : read offset c (cs ++ '\n' :: ds) = read offset c cs := by
  rw [read, read, extent_append_lineFeed h, List.take_append_of_le_length (length_extent_le c cs)]

theorem scanFrom_ne_nil (offset : Nat) (cs : List Char) : scanFrom offset cs ≠ [] := by
  fun_cases scanFrom offset cs <;> exact List.cons_ne_nil _ _

/-- **A text with a line feed and more behind it** is scanned like the text without its end mark,
and then what stands behind the line feed. -/
theorem scanFrom_append_lineFeed {offset : Nat} {cs : List Char}
    (h : ∀ t ∈ scanFrom offset cs, t.kind.isFault = false) (ds : List Char) :
    scanFrom offset (cs ++ '\n' :: ds) =
      (scanFrom offset cs).dropLast ++ scanFrom (offset + byteLength cs + 1) ds := by
  fun_induction scanFrom offset cs with
  | case1 offset cs gap start hdrop =>
    -- the trivia reach up to the end of the text, so they go on behind it
    have htrivia : triviaLength (cs ++ '\n' :: ds) = cs.length + (1 + triviaLength ds) := by
      rw [triviaLength_append (fun c es hcons ↦ ?_), if_pos hdrop, Nat.add_assoc]
      cases hdrop.symm.trans hcons
    rw [scanFrom_eq_scanWord, scanFrom_eq_scanWord, htrivia, List.take_length_add_append,
      List.drop_length_add_append, byteLength_append, Nat.add_comm 1, List.take_succ_cons,
      List.drop_succ_cons, byteLength_cons]
    simp only [List.dropLast_singleton, List.nil_append, Nat.add_assoc]
    rfl
  | case2 offset cs gap start c es hdrop t hfault =>
    have hnot : t.kind.isFault = false := h t List.mem_cons_self
    exact absurd hfault (Bool.eq_false_iff.1 hnot)
  | case3 offset cs gap start c es hdrop t hfault ih =>
    -- a token is in the way, so neither the trivia nor the token see the line feed
    have hnot : (extent c es).kind.isFault = false := Bool.eq_false_iff.2 hfault
    have hgap : gap ≤ cs.length := by
      by_contra hlt
      rw [List.drop_eq_nil_of_le (Nat.le_of_not_le hlt)] at hdrop
      cases hdrop
    have htrivia : triviaLength (cs ++ '\n' :: ds) = gap := by
      rw [triviaLength_append (fun c' es' hcons ↦ ?_), if_neg]
      · exact fun hnil ↦ List.cons_ne_nil _ _ (hdrop.symm.trans hnil)
      · obtain ⟨rfl, rfl⟩ := List.cons.inj (hdrop.symm.trans hcons)
        exact opensComment_of_extent hnot
    have hstop : t.span.stop + byteLength (es.drop (extent c es).length) =
        offset + byteLength cs := by
      have hes : byteLength (c :: es) = byteLength (c :: es.take (extent c es).length) +
          byteLength (es.drop (extent c es).length) := by
        rw [← byteLength_append, List.cons_append, List.take_append_drop]
      have hcs : byteLength cs = byteLength (cs.take gap) + byteLength (c :: es) := by
        rw [← hdrop, ← byteLength_append, List.take_append_drop]
      rw [hcs, hes, ← Nat.add_assoc, ← Nat.add_assoc]
      rfl
    rw [scanFrom_eq_scanWord, htrivia, List.take_append_of_le_length hgap,
      List.drop_append_of_le_length hgap, hdrop, List.cons_append, scanWord,
      read_append_lineFeed hnot, extent_append_lineFeed hnot,
      List.drop_append_of_le_length (length_extent_le c es),
      List.dropLast_cons_of_ne_nil (scanFrom_ne_nil _ _), List.cons_append, ← hstop,
      ← ih fun u hu ↦ h u (List.mem_cons_of_mem _ hu)]
    exact if_neg hfault

/-- **Two texts with a line feed between them** are scanned like the first and then the second, if
there is no fault in the first: the end mark of the first is left out, and the tokens of the second
stand behind the first and the line feed. -/
theorem scanList_append_lineFeed (h : ∀ t ∈ scanList cs, t.kind.isFault = false)
    (ds : List Char) : scanList (cs ++ '\n' :: ds) =
      (scanList cs).dropLast ++ (scanList ds).map (shift (byteLength cs + 1)) := by
  rw [scanList, scanFrom_append_lineFeed h, scanList, scanList, ← scanFrom_shift,
    Nat.add_assoc]

theorem scan_joined {s : String} (h : ∀ w ∈ scan s, w.kind.isFault = false) (t : String) :
    scan (s ++ "\n" ++ t) = (scan s).dropLast ++ (scan t).map (shift (s.utf8ByteSize + 1)) := by
  have htext : (s ++ "\n" ++ t).toList = s.toList ++ '\n' :: t.toList := by simp
  rw [scan, htext, scanList_append_lineFeed h, byteLength_toList]
  rfl

/-- **Scanning is compositional.** A text without faults is scanned into words and the end mark. If
a line feed and any other text follow it, the words stay, and behind them stand the tokens of the
other text, a fault and the end mark included, further on by what stands in front of it. -/
theorem scan_append_lineFeed (s : String) (h : ∀ w ∈ scan s, w.kind.isFault = false) :
    ∃ words, scan s = words ++ [finishAt s.utf8ByteSize] ∧ (∀ w ∈ words, w.kind ≠ .finish) ∧
      ∀ t, scan (s ++ "\n" ++ t) = words ++ (scan t).map (shift (s.utf8ByteSize + 1)) := by
  obtain ⟨words, hscan, hwords⟩ := exists_words h
  refine ⟨words, hscan, hwords, fun t ↦ ?_⟩
  rw [scan_joined h, hscan, List.dropLast_concat]

/-- A text that ends inside a comment, and behind it one with a fault. -/
theorem scan_append_lineFeed_comment :
    (∀ w ∈ scan "é / // 2", w.kind.isFault = false) ∧
      ∃ words, scan "é / // 2" = words ++ [finishAt 9] ∧
        scan ("é / // 2" ++ "\n" ++ "x.$") = words ++ (scan "x.$").map (shift 10) := by
  have hfault : ∀ w ∈ scan "é / // 2", w.kind.isFault = false := by decide +kernel
  obtain ⟨words, hscan, -, hjoined⟩ := scan_append_lineFeed "é / // 2" hfault
  exact ⟨hfault, words, hscan, hjoined "x.$"⟩

end FrontEnd.Token
