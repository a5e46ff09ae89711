import FrontEnd.Proofs.Source.Slices
import FrontEnd.Proofs.Token.Spelling

/-!
# Scanning what has been written

A **lexeme** is a token without its place: what it is and how it is spelled. Written down with
blanks between them, lexemes are scanned back one for one (`Token.exists_scanFrom_spaced`).

That rests on each lexeme alone. `Lexeme.Lexes` says that a lexeme is scanned back wherever the text
goes on with a blank or ends, and one lemma for each class of lexemes that are written down shows
it: signs, names and reserved words, decimal numbers and runes.
-/

namespace FrontEnd

/-- A token without its place. -/
structure Lexeme where
  /-- What kind of word it is. -/
  kind : Token.Kind
  /-- How it is spelled. -/
  text : List Char
deriving DecidableEq, Repr

/-- What a token is, wherever it stands. -/
def Token.lexeme (t : Token) : Lexeme :=
  ⟨t.kind, t.text⟩

namespace Lexeme

/-- A sign. -/
def sign (s : Sign) : Lexeme :=
  ⟨.sign s, [s.char]⟩

/-- A keyword. -/
def keyword (k : Keyword) : Lexeme :=
  ⟨.keyword k, k.spelling.toList⟩

/-- The name of a scalar type. -/
def scalar (s : Scalar) : Lexeme :=
  ⟨.scalar s, s.name.toList⟩

/-- The end mark. -/
def finish : Lexeme :=
  ⟨.finish, []⟩

/-- The token of a lexeme that stands at an offset. -/
def tokenAt (w : Lexeme) (offset : Nat) : Token :=
  ⟨w.kind, ⟨offset, offset + byteLength w.text⟩, w.text⟩

/-- Lexemes written down with a blank between any two. -/
def spaced (ws : List Lexeme) : List Char :=
  [' '].intercalate (ws.map text)

end Lexeme

namespace Token

variable {c : Char} {cs rest : List Char} {k : Kind}

/-- What may follow a word that has to be told from the next: a blank, or the end of the text. -/
def Ends (rest : List Char) : Prop :=
  ∀ c ∈ rest.head?, c = ' '

theorem Ends.of_eq_false {p : Char → Bool} (h : Ends rest) (hp : p ' ' = false) :
    ∀ c ∈ rest.head?, p c = false := by
  intro c hc
  rw [h c hc, hp]

theorem forall_mem_head?_append {p : Char → Prop} (hcs : ∀ d ∈ cs.head?, p d)
    (hrest : ∀ d ∈ rest.head?, p d) : ∀ d ∈ (cs ++ rest).head?, p d := by
  cases cs with
  | nil => exact hrest
  | cons d cs => exact hcs

/-! ### One step of the scanner -/

/-- The tokens of a text that starts with a token. -/
def scanWord (start : Nat) : List Char → List Token
  | [] => [finishAt start]
  | c :: cs =>
    let t := read start c cs
    if t.kind.isFault then [t, finishAt t.span.stop]
    else t :: scanFrom t.span.stop (cs.drop (extent c cs).length)

/-- Scanning skips trivia and goes on with a token. -/
theorem scanFrom_eq_scanWord (offset : Nat) (cs : List Char) : scanFrom offset cs =
    scanWord (offset + byteLength (cs.take (triviaLength cs))) (cs.drop (triviaLength cs)) := by
  rw [scanFrom.eq_def]
  dsimp only
  split <;> rename_i h <;> rw [h] <;> rfl

theorem scanFrom_nil (offset : Nat) : scanFrom offset [] = [finishAt offset] := by
  rw [scanFrom_eq_scanWord, triviaLength.eq_def]
  rfl

theorem triviaLength_space (cs : List Char) : triviaLength (' ' :: cs) = triviaLength cs + 1 := by
  rw [triviaLength.eq_def]
  rfl

theorem scanFrom_space (offset : Nat) (cs : List Char) :
    scanFrom offset (' ' :: cs) = scanFrom (offset + 1) cs := by
  rw [scanFrom_eq_scanWord, scanFrom_eq_scanWord, triviaLength_space, List.take_succ_cons,
    List.drop_succ_cons, byteLength_cons, ← Nat.add_assoc]
  rfl

theorem triviaLength_eq_zero (hc : isBlank c = false)
    (hslash : c = '/' → ∀ d ∈ cs.head?, d ≠ '/' ∧ d ≠ '*') : triviaLength (c :: cs) = 0 := by
  rw [triviaLength.eq_def]
  split
  · rename_i heq
    obtain ⟨rfl, rfl⟩ := List.cons_eq_cons.1 heq
    exact absurd rfl (hslash rfl _ rfl).1
  · rename_i heq
    obtain ⟨rfl, rfl⟩ := List.cons_eq_cons.1 heq
    exact absurd rfl (hslash rfl _ rfl).2
  · rename_i heq
    obtain ⟨rfl, rfl⟩ := List.cons_eq_cons.1 heq
    rw [hc]
    rfl
  · rfl

/-- Scanning a text that starts with a token which takes just the characters `c :: cs`. -/
theorem scanFrom_append (htrivia : triviaLength (c :: (cs ++ rest)) = 0)
    (hextent : extent c (cs ++ rest) = ⟨k, cs.length⟩) (hk : k.isFault = false) (offset : Nat) :
    scanFrom offset (c :: cs ++ rest) = Lexeme.tokenAt ⟨k, c :: cs⟩ offset ::
      scanFrom (offset + byteLength (c :: cs)) rest := by
  have hread : read offset c (cs ++ rest) = Lexeme.tokenAt ⟨k, c :: cs⟩ offset := by
    simp only [read, hextent, List.take_left, Lexeme.tokenAt]
  rw [List.cons_append, scanFrom_eq_scanWord, htrivia, List.take_zero, List.drop_zero,
    byteLength_nil, Nat.add_zero, scanWord, hread, hextent, List.drop_left]
  exact if_neg (Bool.eq_false_iff.1 hk)

end Token

/-! ### Lexemes by themselves -/

namespace Lexeme

open Token

variable {c : Char} {cs : List Char} {k : Kind}

/-- **A lexeme is scanned back** wherever a blank or the end of the text follows it. -/
def Lexes (w : Lexeme) : Prop :=
  ∀ rest, Ends rest → ∀ offset, scanFrom offset (w.text ++ rest) =
    w.tokenAt offset :: scanFrom (offset + byteLength w.text) rest

/-- A lexeme alone is one token, and then the end mark follows. -/
theorem Lexes.scanFrom_eq {w : Lexeme} (h : w.Lexes) (offset : Nat) : scanFrom offset w.text =
    [w.tokenAt offset, finishAt (offset + byteLength w.text)] := by
  have hscan := h [] (fun c hc ↦ absurd hc (Option.not_mem_none c)) offset
  rwa [List.append_nil, scanFrom_nil] at hscan

theorem lexes_of_extent (hc : isBlank c = false) (hslash : c = '/' → cs = [])
    (hk : k.isFault = false)
    (hextent : ∀ rest, Ends rest → extent c (cs ++ rest) = ⟨k, cs.length⟩) :
    Lexes ⟨k, c :: cs⟩ := by
  intro rest hrest offset
  refine scanFrom_append (triviaLength_eq_zero hc fun hslash' d hd ↦ ?_) (hextent rest hrest) hk
    offset
  rw [hslash hslash', List.nil_append] at hd
  rw [hrest d hd]
  decide

theorem lexes_sign (s : Sign) : (sign s).Lexes := by
  refine lexes_of_extent (by cases s <;> rfl) (fun _ ↦ rfl) rfl fun rest hrest ↦ ?_
  have hcomment : opensComment s.char ([] ++ rest) = false := by
    rw [opensComment, List.nil_append, Bool.and_eq_false_iff]
    refine .inr (beq_eq_false_iff_ne.2 fun hhead ↦ ?_)
    exact absurd (hrest '*' hhead) (by decide)
  have hsign : Sign.ofChar? s.char = some s := by cases s <;> rfl
  rw [extent, hcomment, hsign]
  rfl

/-! ### Words

Names, reserved words and numbers start with a character that means nothing else. -/

/-- The characters that a word cannot start with: blanks, quotes and signs. -/
def marks : List Char :=
  [' ', '\t', '\r', '\n', '\'', '"'] ++ Sign.all.map Sign.char

theorem notMem_marks {p : Char → Bool} (hp : marks.any p = false) (hc : p c = true) :
    c ∉ marks :=
  fun h ↦ List.any_eq_false.1 hp c h hc

theorem isBlank_of_notMem_marks (hc : c ∉ marks) : isBlank c = false := by
  simp only [isBlank, Bool.or_eq_false_iff, beq_eq_false_iff_ne]
  refine ⟨⟨⟨?_, ?_⟩, ?_⟩, ?_⟩ <;> exact fun h ↦ hc (h ▸ by decide)

theorem extent_of_notMem_marks (hc : c ∉ marks) (cs : List Char) : extent c cs =
    if c.isDigit then numberExtent c cs
    else if isNameStart c then nameExtent c cs
    else ⟨.fault (.unknownCharacter c), 0⟩ := by
  have hcomment : ¬ opensComment c cs = true := by
    rw [opensComment, Bool.and_eq_true, beq_iff_eq]
    exact fun h ↦ hc (h.1 ▸ by decide)
  have hsign : Sign.ofChar? c = none := by
    refine List.find?_eq_none.2 fun s hs heq ↦ hc ?_
    exact List.mem_append_right _ (List.mem_map.2 ⟨s, hs, beq_iff_eq.1 heq⟩)
  have hrune : c ≠ '\'' := fun h ↦ hc (h ▸ by decide)
  have hstring : c ≠ '"' := fun h ↦ hc (h ▸ by decide)
  rw [extent, if_neg hcomment, hsign]
  dsimp only
  rw [if_neg hrune, if_neg hstring]

/-- A word is scanned back if that is so for the scanner of its class. -/
theorem lexes_of_notMem_marks (hc : c ∉ marks) (hk : k.isFault = false)
    (hextent : ∀ rest, Ends rest → extent c (cs ++ rest) = ⟨k, cs.length⟩) :
    Lexes ⟨k, c :: cs⟩ :=
  lexes_of_extent (isBlank_of_notMem_marks hc) (fun h ↦ absurd (h ▸ by decide) hc) hk hextent

/-! ### Names and reserved words -/

theorem isNameStart_of_isDigit (hc : c.isDigit = true) : isNameStart c = false := by
  have hbounds : 48 ≤ c.toNat ∧ c.toNat ≤ 57 := by
    simpa [Char.isDigit, UInt32.le_iff_toNat_le] using hc
  have halpha : c.isAlpha = false := by
    show (decide ('A'.val ≤ c.val ∧ c.val ≤ 'Z'.val) ||
      (decide ('a'.val ≤ c.val) && decide (c.val ≤ 'z'.val))) = false
    simp [UInt32.le_iff_toNat_le]
    omega
  have hlt : c.toNat < 0x80 := by omega
  rw [isNameStart, Text.isAlphabetic, if_pos hlt, halpha, Bool.false_or, beq_eq_false_iff_ne]
  rintro rfl
  exact absurd hc (by decide)

theorem isFault_ofWord? (word : String) :
    ((Kind.ofWord? word).getD .ident).isFault = false := by
  rw [Kind.ofWord?]
  split
  · rfl
  · cases Scalar.ofName? word <;> rfl

theorem lexes_name (hc : isNameStart c = true) (hcs : ∀ d ∈ cs, isNamePart d = true) :
    Lexes ⟨(Kind.ofWord? (String.ofList (c :: cs))).getD .ident, c :: cs⟩ := by
  have hmarks : c ∉ marks := notMem_marks (by decide) hc
  have hdigit : ¬ c.isDigit = true := by
    intro h
    rw [isNameStart_of_isDigit h] at hc
    exact Bool.false_ne_true hc
  refine lexes_of_notMem_marks hmarks (isFault_ofWord? _) fun rest hrest ↦ ?_
  have hrun := (Literal.takeWhile_dropWhile_append hcs (hrest.of_eq_false (by decide))).1
  rw [extent_of_notMem_marks hmarks, if_neg hdigit, if_pos hc, nameExtent, hrun]

theorem lexes_keyword (k : Keyword) : (keyword k).Lexes := by
  cases k <;> exact lexes_name (by decide) (List.all_eq_true.1 (by decide))

theorem lexes_scalar (s : Scalar) : (scalar s).Lexes := by
  rcases s with ⟨w, b⟩ | w | _
  · cases w <;> cases b <;> exact lexes_name (by decide) (List.all_eq_true.1 (by decide))
  · cases w <;> exact lexes_name (by decide) (List.all_eq_true.1 (by decide))
  · exact lexes_name (by decide) (List.all_eq_true.1 (by decide))

/-! ### Numbers -/

/-- A decimal number that takes a whole text takes no more where a blank follows. -/
theorem decimalExtent_append {part : DecimalPart} {afterLetter : Bool} {rest : List Char}
    (hlength : (decimalExtent part afterLetter cs).length = cs.length) (hrest : Ends rest) :
    decimalExtent part afterLetter (cs ++ rest) = decimalExtent part afterLetter cs := by
  fun_induction decimalExtent part afterLetter cs with
  | case1 part afterLetter =>
    cases rest with
    | nil => rfl
    | cons c rest =>
      obtain rfl := hrest c rfl
      cases afterLetter <;> rfl
  | _ =>
    rw [List.cons_append, decimalExtent.eq_def]
    simp_all

/-- Digits with underscores among them are an integer. -/
theorem decimalExtent_of_isDigits (hcs : ∀ d ∈ cs, d.isDigit = true ∨ d = '_') :
    decimalExtent .whole false cs = ⟨.int, cs.length⟩ := by
  induction cs with
  | nil => rfl
  | cons d ds ih =>
    obtain ⟨hd, hds⟩ := List.forall_mem_cons.1 hcs
    rcases hd with hd | rfl
    · rw [decimalExtent, if_pos hd, DecimalPart.afterDigit, ih hds]
      · rfl
      · intro b h
        cases h
    · rw [decimalExtent, if_neg (by decide), if_pos rfl, ih hds]
      rfl

/-- A number without a radix is decimal. -/
theorem numberExtent_eq (h : c = '0' → ∀ r ∈ cs.head?, radixOf? r = none) :
    numberExtent c cs = decimalExtent .whole false cs := by
  rw [numberExtent.eq_def]
  split
  · rw [h rfl _ rfl]
  · rfl

/-- **A number has a radix or is decimal.** -/
theorem numberExtent_cases (c : Char) (cs : List Char) :
    (∃ r ds radix, c = '0' ∧ cs = r :: ds ∧ radixOf? r = some radix ∧
        numberExtent c cs = (radixExtent radix ds).grow 1) ∨
      ((c = '0' → ∀ r ∈ cs.head?, radixOf? r = none) ∧
        numberExtent c cs = decimalExtent .whole false cs) := by
  by_cases h : c = '0' → ∀ r ∈ cs.head?, radixOf? r = none
  · exact .inr ⟨h, numberExtent_eq h⟩
  · push Not at h
    obtain ⟨rfl, r, hr, hsome⟩ := h
    obtain ⟨ds, rfl⟩ := List.head?_eq_some_iff.1 hr
    obtain ⟨radix, hradix⟩ := Option.ne_none_iff_exists'.1 hsome
    refine .inl ⟨r, ds, radix, rfl, rfl, hradix, ?_⟩
    rw [numberExtent, hradix]

theorem lexes_decimal (hc : c.isDigit = true)
    (hradix : c = '0' → ∀ r ∈ cs.head?, radixOf? r = none) (hk : k.isFault = false)
    (hwhole : decimalExtent .whole false cs = ⟨k, cs.length⟩) : Lexes ⟨k, c :: cs⟩ := by
  have hmarks : c ∉ marks := notMem_marks (by decide) hc
  refine lexes_of_notMem_marks hmarks hk fun rest hrest ↦ ?_
  have hradix' : c = '0' → ∀ r ∈ (cs ++ rest).head?, radixOf? r = none :=
    fun hzero ↦ forall_mem_head?_append (hradix hzero) fun r hr ↦ hrest r hr ▸ rfl
  have hlength : (decimalExtent .whole false cs).length = cs.length := by
    rw [hwhole]
  rw [extent_of_notMem_marks hmarks, if_pos hc, numberExtent_eq hradix',
    decimalExtent_append hlength hrest, hwhole]

theorem lexes_digits (hc : c.isDigit = true) (hcs : ∀ d ∈ cs, d.isDigit = true ∨ d = '_') :
    Lexes ⟨.int, c :: cs⟩ := by
  refine lexes_decimal hc (fun _ r hr ↦ ?_) rfl (decimalExtent_of_isDigits hcs)
  rcases hcs r (List.mem_of_mem_head? hr) with hdigit | rfl
  · exact Literal.radixOf?_of_isDigit hdigit
  · rfl

/-- An integer by its decimal digits. -/
def int (n : Nat) : Lexeme :=
  ⟨.int, Nat.toDigits 10 n⟩

theorem lexes_int (n : Nat) : (int n).Lexes := by
  have hdigits := Literal.isDigits_toDigits n
  obtain ⟨c, cs, heq⟩ := List.exists_cons_of_ne_nil (Nat.toDigits_ne_nil (b := 10) (n := n))
  rw [heq] at hdigits
  obtain ⟨hc, hcs⟩ := List.forall_mem_cons.1 hdigits
  rw [int, heq]
  exact lexes_digits hc fun d hd ↦ .inl (hcs d hd)

theorem length_decimalExtent_le (part : DecimalPart) (afterLetter : Bool) (cs : List Char) :
    (decimalExtent part afterLetter cs).length ≤ cs.length := by
  fun_induction decimalExtent part afterLetter cs with
  | case1 => exact Nat.le_refl _
  | _ => simp_all

/-! ### Runes -/

/-- A rune, with an escape where there is one for it. -/
def rune (c : Char) : Lexeme where
  kind := .rune
  text :=
    match Escape.code? c with
    | some code => ['\'', '\\', code, '\'']
    | none => ['\'', c, '\'']

theorem value?_of_code? {code : Char} (h : Escape.code? c = some code) :
    Escape.value? code = some c := by
  obtain ⟨⟨code, d⟩, hfind, rfl⟩ := Option.map_eq_some_iff.1 h
  obtain rfl : d = c := by simpa using List.find?_some hfind
  have hall : ∀ p ∈ Escape.table, Escape.value? p.1 = some p.2 := by decide
  exact hall _ (List.mem_of_find?_eq_some hfind)

/-- A character without an escape is neither a quote nor a backslash. -/
theorem ne_of_code?_eq_none (h : Escape.code? c = none) : c ≠ '\'' ∧ c ≠ '\\' := by
  refine ⟨?_, ?_⟩ <;> rintro rfl <;> exact absurd h (by decide)

theorem lexes_rune (c : Char) : (rune c).Lexes := by
  rw [rune]
  split
  · rename_i code hcode
    refine lexes_of_extent (by decide) (fun h ↦ absurd h (by decide)) rfl fun rest _ ↦ ?_
    show (if (Escape.value? code).isSome then _ else _ : Extent) = _
    rw [value?_of_code? hcode]
    rfl
  · rename_i hcode
    obtain ⟨hquote, hslash⟩ := ne_of_code?_eq_none hcode
    refine lexes_of_extent (by decide) (fun h ↦ absurd h (by decide)) rfl fun rest _ ↦ ?_
    show runeExtent (c :: '\'' :: rest) = _
    rw [runeExtent]
    · rfl
    · exact hquote
    · exact fun h _ ↦ hslash h
    · exact fun _ _ h _ ↦ hslash h

end Lexeme

namespace Token

open Lexeme

/-! ### Rows of lexemes -/

/-- **Lexemes with blanks between them are scanned back**, and then the end mark follows. -/
theorem exists_scanFrom_spaced {ws : List Lexeme} (h : ∀ w ∈ ws, w.Lexes) (offset : Nat) :
    ∃ ts, scanFrom offset (spaced ws) = ts ++ [finishAt (offset + byteLength (spaced ws))] ∧
      ts.map lexeme = ws := by
  induction ws generalizing offset with
  | nil => exact ⟨[], scanFrom_nil offset, rfl⟩
  | cons w ws ih =>
    obtain ⟨hw, hws⟩ := List.forall_mem_cons.1 h
    cases ws with
    | nil =>
      have hspaced : spaced [w] = w.text := List.append_nil _
      rw [hspaced]
      exact ⟨[w.tokenAt offset], hw.scanFrom_eq offset, rfl⟩
    | cons v ws =>
      have hspaced : spaced (w :: v :: ws) = w.text ++ ' ' :: spaced (v :: ws) := by
        rw [spaced, List.map_cons, List.map_cons, List.intercalate_cons_cons, List.append_assoc]
        rfl
      have hscan := hw (' ' :: spaced (v :: ws)) (fun c hc ↦ (Option.some.inj hc).symm) offset
      obtain ⟨ts, hts, hlexemes⟩ := ih hws (offset + byteLength w.text + 1)
      have hstop : offset + byteLength (spaced (w :: v :: ws)) =
          offset + byteLength w.text + 1 + byteLength (spaced (v :: ws)) := by
        rw [hspaced, byteLength_append, byteLength_cons]
        show offset + (byteLength w.text + (1 + _)) = _
        omega
      rw [scanFrom_space, hts] at hscan
      rw [hstop, hspaced, hscan]
      exact ⟨w.tokenAt offset :: ts, rfl, congrArg (w :: ·) hlexemes⟩

end Token

end FrontEnd
