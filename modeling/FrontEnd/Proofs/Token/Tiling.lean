import FrontEnd.Proofs.Source.Slices
import FrontEnd.Proofs.Token.Spelling
import Mathlib.Data.List.Chain

/-!
# Tokens tile the text

Nothing of a text is lost between its tokens but blanks and comments. What may stand between two
tokens is said by `Token.Trivia`, without regard to how it is skipped; `Token.Tiles` puts gaps and
words together to a text, with the tokens that it is cut into. Every scan is such a tiling
(`Token.tiles_scanFrom`), and everything about the places of tokens follows from that alone.

Whether a comment is complete cannot be seen from the comment: a line comment has to reach up to the
end of its line. So trivia are always seen together with the **rest** of the text behind them.
-/

namespace FrontEnd.Token

/-! ### Trivia -/

/-- **Trivia** before a rest of the text: blanks, comments up to the end of a line, and comments up
to the first closing. -/
inductive Trivia : List Char → List Char → Prop
  | nil (rest : List Char) : Trivia [] rest
  | blank {c : Char} {gap rest : List Char} :
    c ∈ [' ', '\t', '\r', '\n'] → Trivia gap rest → Trivia (c :: gap) rest
  | line {body gap rest : List Char} :
    '\n' ∉ body → (∀ c ∈ (gap ++ rest).head?, c = '\n') → Trivia gap rest →
      Trivia ('/' :: '/' :: (body ++ gap)) rest
  | block {body gap rest : List Char} :
    ¬ ['*', '/'] <:+: body → Trivia gap rest →
      Trivia ('/' :: '*' :: (body ++ '*' :: '/' :: gap)) rest

/-- A line comment reaches up to the end of its line, or of the text. -/
theorem eq_append_lineComment (cs : List Char) :
    ∃ body rest, cs = body ++ rest ∧ lineCommentLength cs = body.length ∧ '\n' ∉ body ∧
      ∀ c ∈ rest.head?, c = '\n' := by
  refine ⟨cs.takeWhile (· ≠ '\n'), cs.dropWhile (· ≠ '\n'), List.takeWhile_append_dropWhile.symm,
    rfl, fun hmem ↦ ?_, fun c hc ↦ ?_⟩
  · simpa using List.all_eq_true.1 List.all_takeWhile _ hmem
  · have hhead := List.head?_dropWhile_not (fun c ↦ decide (c ≠ '\n')) cs
    rw [Option.mem_def.1 hc] at hhead
    simpa using hhead

/-- A block comment reaches up to the first closing behind its opening. -/
theorem eq_append_of_blockCommentLength? {cs : List Char} {n : Nat}
    (h : blockCommentLength? cs = some n) :
    ∃ body rest, cs = body ++ '*' :: '/' :: rest ∧ n = body.length + 2 ∧
      ¬ ['*', '/'] <:+: body := by
  fun_induction blockCommentLength? cs generalizing n with
  | case1 rest =>
    obtain rfl := Option.some.inj h
    exact ⟨[], rest, rfl, rfl, by simp⟩
  | case2 c cs hopen ih =>
    obtain ⟨m, hm, rfl⟩ := Option.map_eq_some_iff.1 h
    obtain ⟨body, rest, rfl, rfl, hbody⟩ := ih hm
    refine ⟨c :: body, rest, rfl, rfl, fun hinfix ↦ ?_⟩
    rcases List.infix_cons_iff.1 hinfix with ⟨tail, htail⟩ | hinfix
    · -- the closing would have been found one character earlier
      obtain ⟨rfl, rfl⟩ := List.cons_eq_cons.1 htail
      exact hopen _ rfl rfl
    · exact hbody hinfix
  | case3 => exact absurd h (by simp)

/-- **What is skipped before a token is trivia.** -/
theorem trivia_triviaLength (cs : List Char) :
    Trivia (cs.take (triviaLength cs)) (cs.drop (triviaLength cs)) := by
  fun_induction triviaLength cs with
  | case1 ds ih =>
    obtain ⟨body, rest, rfl, hlength, hbody, hhead⟩ := eq_append_lineComment ds
    rw [hlength, List.drop_left] at ih ⊢
    have hpiece : body.length + 2 = ('/' :: '/' :: body).length := rfl
    rw [hpiece, ← List.cons_append, ← List.cons_append, List.take_length_add_append,
      List.drop_length_add_append]
    exact .line hbody (by rwa [List.take_append_drop]) ih
  | case2 ds n hn ih =>
    obtain ⟨body, rest, rfl, rfl, hbody⟩ := eq_append_of_blockCommentLength? hn
    have hdrop : (body ++ '*' :: '/' :: rest).drop (body.length + 2) = rest :=
      List.drop_length_add_append 2
    have htext : '/' :: '*' :: (body ++ '*' :: '/' :: rest) =
        ('/' :: '*' :: (body ++ ['*', '/'])) ++ rest := by simp
    have hpiece : body.length + 2 + 2 = ('/' :: '*' :: (body ++ ['*', '/'])).length := by simp
    rw [hdrop] at ih ⊢
    rw [htext, hpiece, List.take_length_add_append, List.drop_length_add_append]
    simpa using Trivia.block hbody ih
  | case3 => exact .nil _
  | case4 c ds _ _ hblank ih =>
    rw [List.take_succ_cons, List.drop_succ_cons]
    exact .blank (by simpa [isBlank, or_assoc] using hblank) ih
  | case5 => exact .nil _
  | case6 => exact .nil _

/-- Between two offsets a text has **nothing but trivia**. -/
def TriviaBetween (text : List Char) (start stop : Nat) : Prop :=
  ∃ before gap rest, text = before ++ (gap ++ rest) ∧ start = byteLength before ∧
    stop = start + byteLength gap ∧ Trivia gap rest

/-! ### Gaps and words -/

/-- A token stands behind a gap that starts at an offset, and the rest of the text behind it. -/
structure Stands (offset : Nat) (gap rest : List Char) (t : Token) : Prop where
  trivia : Trivia gap (t.text ++ rest)
  text_ne_nil : t.text ≠ []
  span_eq : t.span = ⟨offset + byteLength gap, offset + byteLength gap + byteLength t.text⟩

/-- **Gaps and words in turn**, from an offset on, with the tokens that stand for the words and the
end mark. Behind a fault the rest of the text is left as it is. -/
inductive Tiles : Nat → List Char → List Token → Prop
  | finish {offset : Nat} {gap : List Char} :
    Trivia gap [] → Tiles offset gap [finishAt (offset + byteLength gap)]
  | fault {offset : Nat} {gap rest : List Char} {t : Token} :
    Stands offset gap rest t → t.kind.isFault = true →
      Tiles offset (gap ++ (t.text ++ rest)) [t, finishAt t.span.stop]
  | word {offset : Nat} {gap rest : List Char} {t : Token} {ts : List Token} :
    Stands offset gap rest t → t.kind.isFault = false → t.kind ≠ .finish →
      Tiles t.span.stop rest ts → Tiles offset (gap ++ (t.text ++ rest)) (t :: ts)

/-- Where a token is due, the text is a gap, the token, and what is left behind it. -/
theorem stands_read {cs ds : List Char} {c : Char} (h : cs.drop (triviaLength cs) = c :: ds)
    (offset : Nat) :
    let gap := cs.take (triviaLength cs)
    let t := read (offset + byteLength gap) c ds
    let rest := ds.drop (extent c ds).length
    cs = gap ++ (t.text ++ rest) ∧ Stands offset gap rest t := by
  intro gap t rest
  have hword : t.text ++ rest = c :: ds := congrArg (c :: ·) (List.take_append_drop _ _)
  have htrivia : Trivia gap (t.text ++ rest) := by
    rw [hword, ← h]
    exact trivia_triviaLength cs
  refine ⟨?_, htrivia, List.cons_ne_nil _ _, rfl⟩
  rw [hword, ← h]
  exact (List.take_append_drop _ _).symm

/-- **Every scan is a tiling.** -/
theorem tiles_scanFrom (offset : Nat) (cs : List Char) : Tiles offset cs (scanFrom offset cs) := by
  fun_induction scanFrom offset cs with
  | case1 offset cs gap start hdrop =>
    have hgap : cs.take gap = cs := List.take_of_length_le (List.drop_eq_nil_iff.1 hdrop)
    have htrivia : Trivia (cs.take gap) (cs.drop gap) := trivia_triviaLength cs
    rw [hdrop, hgap] at htrivia
    have hstart : start = offset + byteLength cs := by rw [← hgap]
    rw [hstart]
    exact .finish htrivia
  | case2 offset cs gap start c ds hdrop t hfault =>
    obtain ⟨hcs, ht⟩ := stands_read hdrop offset
    rw [hcs]
    exact .fault ht hfault
  | case3 offset cs gap start c ds hdrop t hfault ih =>
    obtain ⟨hcs, ht⟩ := stands_read hdrop offset
    rw [hcs]
    exact .word ht (Bool.eq_false_iff.2 hfault) (kind_ne_finish (spells_extent c ds)) ih

/-! ### What a tiling says -/

namespace Stands

variable {offset : Nat} {gap rest before : List Char} {t : Token}

theorem le_start (h : Stands offset gap rest t) : offset ≤ t.span.start := by
  rw [h.span_eq]
  exact Nat.le_add_right _ _

theorem start_le_stop (h : Stands offset gap rest t) : t.span.start ≤ t.span.stop := by
  rw [h.span_eq]
  exact Nat.le_add_right _ _

theorem stop_eq (h : Stands offset gap rest t) (hoffset : offset = byteLength before) :
    t.span.stop = byteLength (before ++ (gap ++ t.text)) := by
  rw [h.span_eq, byteLength_append, byteLength_append, hoffset, Nat.add_assoc]

theorem cuts (h : Stands offset gap rest t) (hoffset : offset = byteLength before) :
    t.span.Cuts (before ++ (gap ++ (t.text ++ rest))) t.text := by
  refine ⟨before ++ gap, rest, (List.append_assoc _ _ _).symm, ?_⟩
  rw [h.span_eq, byteLength_append, hoffset]

theorem triviaBetween (h : Stands offset gap rest t) (hoffset : offset = byteLength before) :
    TriviaBetween (before ++ (gap ++ (t.text ++ rest))) offset t.span.start := by
  refine ⟨before, gap, t.text ++ rest, rfl, hoffset, ?_, h.trivia⟩
  rw [h.span_eq]

end Stands

namespace Tiles

variable {offset : Nat} {cs before : List Char} {ts : List Token}

/-- The end mark is last, and a fault stands only before it. Without a fault the end mark is at the
end of the text, and with one it is at the end of the fault. -/
theorem eq_append (h : Tiles offset cs ts) :
    ∃ (words : List Token) (fault? : Option Token), ts = words ++ fault?.toList ++
        [finishAt ((fault?.map (·.span.stop)).getD (offset + byteLength cs))] ∧
      (∀ t ∈ words, t.kind ≠ .finish ∧ t.kind.isFault = false) ∧
      ∀ t ∈ fault?, t.kind.isFault = true := by
  induction h with
  | finish _ => exact ⟨[], none, rfl, by simp, by simp⟩
  | @fault offset gap rest t ht hfault =>
    exact ⟨[], some t, rfl, by simp, by simpa using hfault⟩
  | @word offset gap rest t ts ht hfault hfinish _ ih =>
    obtain ⟨words, fault?, rfl, hwords, hfault?⟩ := ih
    refine ⟨t :: words, fault?, ?_, List.forall_mem_cons.2 ⟨⟨hfinish, hfault⟩, hwords⟩, hfault?⟩
    have hstop : t.span.stop + byteLength rest =
        offset + byteLength (gap ++ (t.text ++ rest)) := by
      rw [ht.span_eq, byteLength_append, byteLength_append]
      dsimp only
      omega
    rw [hstop]
    rfl

theorem text_ne_nil (h : Tiles offset cs ts) : ∀ t ∈ ts, t.kind ≠ .finish → t.text ≠ [] := by
  induction h with
  | finish _ => exact List.forall_mem_singleton.2 fun h ↦ absurd rfl h
  | fault ht _ =>
    exact List.forall_mem_cons.2
      ⟨fun _ ↦ ht.text_ne_nil, List.forall_mem_singleton.2 fun h ↦ absurd rfl h⟩
  | word ht _ _ _ ih => exact List.forall_mem_cons.2 ⟨fun _ ↦ ht.text_ne_nil, ih⟩

/-- **Every token cuts its own text out.** -/
theorem cuts (h : Tiles offset cs ts) (hoffset : offset = byteLength before) :
    ∀ t ∈ ts, t.span.Cuts (before ++ cs) t.text := by
  induction h generalizing before with
  | @finish offset gap _ =>
    refine List.forall_mem_singleton.2 ⟨before ++ gap, [], by simp [finishAt], ?_⟩
    rw [byteLength_append, ← hoffset]
    rfl
  | @fault offset gap rest t ht _ =>
    refine List.forall_mem_cons.2 ⟨ht.cuts hoffset, List.forall_mem_singleton.2 ?_⟩
    rw [ht.stop_eq hoffset]
    exact ⟨before ++ (gap ++ t.text), rest, by simp [finishAt], rfl⟩
  | @word offset gap rest t ts ht _ _ _ ih =>
    refine List.forall_mem_cons.2 ⟨ht.cuts hoffset, ?_⟩
    have hmore := ih (ht.stop_eq hoffset)
    rwa [List.append_assoc, List.append_assoc] at hmore

/-- **Tokens stand in order**, and none starts before the offset. -/
theorem ordered (h : Tiles offset cs ts) :
    ts.Pairwise (fun s t ↦ s.span.Before t.span) ∧ ∀ t ∈ ts, offset ≤ t.span.start := by
  induction h with
  | @finish offset gap _ =>
    exact ⟨List.pairwise_singleton _ _, List.forall_mem_singleton.2 (Nat.le_add_right _ _)⟩
  | @fault offset gap rest t ht _ =>
    have hfinish : offset ≤ t.span.stop := Nat.le_trans ht.le_start ht.start_le_stop
    exact ⟨List.pairwise_pair.2 (Nat.le_refl t.span.stop),
      List.forall_mem_cons.2 ⟨ht.le_start, List.forall_mem_singleton.2 hfinish⟩⟩
  | @word offset gap rest t ts ht _ _ _ ih =>
    refine ⟨List.pairwise_cons.2 ⟨ih.2, ih.1⟩, List.forall_mem_cons.2 ⟨ht.le_start, fun u hu ↦ ?_⟩⟩
    exact Nat.le_trans ht.le_start (Nat.le_trans ht.start_le_stop (ih.2 u hu))

/-- **From one token to the next there are trivia**, and so from the offset to the first one. -/
theorem gaps (h : Tiles offset cs ts) (hoffset : offset = byteLength before) :
    (Span.point offset :: ts.map (·.span)).IsChain fun s t ↦
      TriviaBetween (before ++ cs) s.stop t.start := by
  induction h generalizing before with
  | @finish offset gap hgap =>
    refine List.isChain_cons_cons.2 ⟨?_, List.isChain_singleton _⟩
    exact ⟨before, gap, [], by simp, hoffset, rfl, hgap⟩
  | @fault offset gap rest t ht _ =>
    refine List.isChain_cons_cons.2 ⟨ht.triviaBetween hoffset,
      List.isChain_cons_cons.2 ⟨?_, List.isChain_singleton _⟩⟩
    exact ⟨before ++ (gap ++ t.text), [], rest, by simp, ht.stop_eq hoffset, rfl, .nil rest⟩
  | @word offset gap rest t ts ht _ _ _ ih =>
    have hmore := ih (ht.stop_eq hoffset)
    rw [List.append_assoc, List.append_assoc] at hmore
    -- what follows sees of the token only where it ends
    exact List.isChain_cons_cons.2
      ⟨ht.triviaBetween hoffset, List.isChain_cons.2 (List.isChain_cons.1 hmore)⟩

end Tiles

/-- A text without faults is scanned into words, and an end mark at the end of the text. -/
theorem exists_words {text : String} (h : ∀ t ∈ scan text, t.kind.isFault = false) :
    ∃ words, scan text = words ++ [finishAt text.utf8ByteSize] ∧ ∀ t ∈ words, t.kind ≠ .finish := by
  obtain ⟨words, fault?, hscan, hwords, hfault⟩ := (tiles_scanFrom 0 text.toList).eq_append
  cases fault? with
  | none =>
    refine ⟨words, ?_, fun t ht ↦ (hwords t ht).1⟩
    rw [scan, scanList, hscan, ← byteLength_toList]
    simp
  | some t =>
    have hmem : t ∈ scan text := by
      rw [scan, scanList, hscan]
      simp
    cases (hfault t rfl).symm.trans (h t hmem)

/-- **In a text of less than `2 ^ 32` bytes all offsets are words.** -/
theorem fitsWord_of_mem_scan {text : String} (htext : text.utf8ByteSize < UInt32.size) {t : Token}
    (ht : t ∈ scan text) : t.span.FitsWord := by
  rw [← byteLength_toList] at htext
  exact ((tiles_scanFrom 0 text.toList).cuts byteLength_nil.symm t ht).fitsWord htext

/-- **Tokens tile the text**, whatever the text is.

The end mark is the last token and no other one is. At most one token is a fault, and it stands just
before the end mark. Every token cuts its own spelling out of the text, at boundaries between
characters; only the end mark is empty. Tokens are in order and do not overlap, and between them, as
before the first one, there are only trivia. The end mark stands at the end of the text, or at the
end of the fault. -/
theorem scan_tiles (text : String) :
    ∃ (words : List Token) (fault? : Option Token) (stop : Nat),
      scan text = words ++ fault?.toList ++ [finishAt stop] ∧
      (∀ t ∈ words, t.kind ≠ .finish ∧ t.kind.isFault = false) ∧
      (∀ t ∈ fault?, t.kind.isFault = true) ∧
      (∀ t ∈ scan text, t.span.Cuts text.toList t.text) ∧
      (∀ t ∈ words ++ fault?.toList, t.span.start < t.span.stop) ∧
      (scan text).Pairwise (fun s t ↦ s.span.Before t.span) ∧
      ((Span.point 0 :: (scan text).map (·.span)).IsChain fun s t ↦
        TriviaBetween text.toList s.stop t.start) ∧
      stop = (fault?.map (·.span.stop)).getD text.utf8ByteSize := by
  have h : Tiles 0 text.toList (scan text) := tiles_scanFrom 0 text.toList
  have hcuts := h.cuts byteLength_nil.symm
  obtain ⟨words, fault?, hscan, hwords, hfault⟩ := h.eq_append
  refine ⟨words, fault?, _, hscan, hwords, hfault, hcuts, fun t ht ↦ ?_, h.ordered.1,
    h.gaps byteLength_nil.symm, ?_⟩
  · have hmem : t ∈ scan text := hscan ▸ List.mem_append_left _ ht
    have hkind : t.kind ≠ .finish := by
      rcases List.mem_append.1 ht with ht | ht
      · exact (hwords t ht).1
      · intro hkind
        have := hfault t (Option.mem_toList.1 ht)
        rw [hkind] at this
        cases this
    exact (hcuts t hmem).lt (h.text_ne_nil t hmem hkind)
  · rw [byteLength_toList, Nat.zero_add]

end FrontEnd.Token
