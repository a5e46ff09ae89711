import FrontEnd.Proofs.Program.Values
import FrontEnd.Proofs.Token.Rescanning

/-!
# Quoting, and reading a quotation

Between quotes a character is written as it is, or as a backslash and its code
(`Escape.Spells`). Some characters have no choice: a quote would end the literal, a backslash would
start an escape, and a line feed may not stand in a string at all. A **quotation** of a text
(`Literal.Quotes`) writes each of its characters in one of the ways that are open to it, and puts
quotes around them.

What is inside a literal is cut into characters and escapes twice, by the scanner, which has to find
the closing quote, and by the reader of the value, which has the quotes taken off first. The two
agree on every quotation, and the literals of a text are nothing but quotations
(`Literal.scan_quotations`): the value has one character for each piece between the quotes, and
there is always a value.
-/

namespace FrontEnd

open Token

/-! ### The ways to write a character -/

namespace Escape

variable {marks : List Char} {c : Char} {cs v : List Char} {pieces : List (List Char)}

/-- **The ways to write a character** between quotes, where the characters `marks` cannot stand for
themselves. -/
inductive Spells (marks : List Char) (c : Char) : List Char → Prop
  /-- The character itself. -/
  | plain (h : c ∉ marks) : Spells marks c [c]
  /-- A backslash and a code that stands for the character. -/
  | escaped {code : Char} (h : value? code = some c) : Spells marks c ['\\', code]

/-- There is a way to write every character if there are codes for all marks. -/
theorem exists_spells (hmarks : marks.all (code? · |>.isSome) = true) (c : Char) :
    ∃ piece, Spells marks c piece := by
  by_cases hc : c ∈ marks
  · obtain ⟨code, hcode⟩ := Option.isSome_iff_exists.1 (List.all_eq_true.1 hmarks c hc)
    exact ⟨_, .escaped (Lexeme.value?_of_code? hcode)⟩
  · exact ⟨_, .plain hc⟩

theorem decode_cons (hc : c ≠ '\\') (cs : List Char) : decode (c :: cs) = c :: decode cs := by
  rw [decode]
  · exact fun _ _ h _ ↦ hc h
  · exact fun h _ ↦ hc h

/-- **Decoding takes one piece at a time.** A piece that is not an escape does not start with a
backslash, so no two pieces are taken for one. -/
theorem decode_flatten (hmarks : '\\' ∈ marks) (h : List.Forall₂ (Spells marks) v pieces) :
    decode pieces.flatten = v := by
  induction h with
  | nil => rfl
  | cons hpiece _ ih =>
    cases hpiece with
    | plain hc =>
      rw [List.flatten_cons, List.singleton_append,
        decode_cons (ne_of_mem_of_not_mem hmarks hc).symm, ih]
    | escaped hvalue =>
      rw [List.flatten_cons, List.cons_append, List.singleton_append, decode, hvalue]
      dsimp only
      rw [ih]

end Escape

/-! ### Quotations -/

namespace Literal

open Escape

/-- The characters that cannot stand for themselves in a string literal. -/
def stringMarks : List Char :=
  ['"', '\\', '\n']

/-- The characters that cannot stand for themselves in a rune literal. -/
def runeMarks : List Char :=
  ['\'', '\\']

/-- **A text quotes characters**: it has one piece for each of them, and a quote at both ends. -/
def Quotes (q : Char) (marks v text : List Char) : Prop :=
  ∃ pieces, text = q :: (pieces.flatten ++ [q]) ∧ List.Forall₂ (Spells marks) v pieces

variable {q c : Char} {marks v text cs rest : List Char} {pieces : List (List Char)}

theorem exists_quotes (hmarks : marks.all (code? · |>.isSome) = true) (q : Char)
    (v : List Char) : ∃ text, Quotes q marks v text := by
  have hpieces : ∃ pieces, List.Forall₂ (Spells marks) v pieces := by
    induction v with
    | nil => exact ⟨[], .nil⟩
    | cons c v ih =>
      obtain ⟨piece, hpiece⟩ := exists_spells hmarks c
      obtain ⟨pieces, hpieces⟩ := ih
      exact ⟨piece :: pieces, .cons hpiece hpieces⟩
  obtain ⟨pieces, hpieces⟩ := hpieces
  exact ⟨_, pieces, rfl, hpieces⟩

/-- A quotation of one character is one piece between quotes. -/
theorem quotes_singleton_iff :
    Quotes q marks [c] text ↔ ∃ piece, text = q :: (piece ++ [q]) ∧ Spells marks c piece := by
  constructor
  · rintro ⟨_, rfl, hpieces⟩
    obtain ⟨piece, _, hpiece, hnil, rfl⟩ := List.forall₂_cons_left_iff.1 hpieces
    obtain rfl := List.forall₂_nil_left_iff.1 hnil
    exact ⟨piece, by rw [List.flatten_singleton], hpiece⟩
  · rintro ⟨piece, rfl, hpiece⟩
    exact ⟨[piece], by rw [List.flatten_singleton], .cons hpiece .nil⟩

/-! ### The value of a quotation -/

theorem unquoted?_enclosed (q : Char) (cs : List Char) :
    unquoted? q (q :: (cs ++ [q])) = some cs := by
  simp [unquoted?]

theorem string_of_quotes (h : Quotes '"' stringMarks v text) : string text = v := by
  obtain ⟨pieces, rfl, hpieces⟩ := h
  rw [string, unquoted?_enclosed, Option.getD_some]
  exact decode_flatten (by decide) hpieces

theorem rune?_of_quotes (h : Quotes '\'' runeMarks [c] text) : rune? text = some c := by
  obtain ⟨piece, rfl, hpiece⟩ := quotes_singleton_iff.1 h
  cases hpiece with
  | plain hc =>
    refine rune?_plain ?_
    rintro rfl
    exact hc (by decide)
  | escaped hvalue => exact hvalue

/-! ### The scanner finds the closing quote -/

theorem stringExtent_plain (hc : c ∉ stringMarks) (cs : List Char) :
    stringExtent (c :: cs) = (stringExtent cs).grow 1 := by
  have hne {d : Char} (hd : d ∈ stringMarks) : c ≠ d := fun h ↦ hc (h ▸ hd)
  rw [stringExtent]
  · exact hne (by decide)
  · exact hne (by decide)
  · exact fun h _ ↦ hne (by decide) h
  · exact fun _ _ h _ ↦ hne (by decide) h

theorem stringExtent_flatten (h : List.Forall₂ (Spells stringMarks) v pieces) (rest : List Char) :
    stringExtent (pieces.flatten ++ '"' :: rest) = ⟨.string, pieces.flatten.length + 1⟩ := by
  induction h with
  | nil => rfl
  | cons hpiece _ ih =>
    rw [List.flatten_cons, List.append_assoc]
    cases hpiece with
    | plain hc =>
      rw [List.singleton_append, stringExtent_plain hc, ih]
      rfl
    | escaped hvalue =>
      rw [List.cons_append, List.singleton_append, stringExtent, if_pos (by rw [hvalue]; rfl), ih]
      rfl

theorem runeExtent_piece {piece : List Char} (h : Spells runeMarks c piece) (rest : List Char) :
    runeExtent (piece ++ '\'' :: rest) = ⟨.rune, piece.length + 1⟩ := by
  cases h with
  | plain hc =>
    have hne {d : Char} (hd : d ∈ runeMarks) : c ≠ d := fun h ↦ hc (h ▸ hd)
    rw [List.singleton_append, runeExtent]
    · rfl
    · exact hne (by decide)
    · exact fun h _ ↦ hne (by decide) h
    · exact fun _ _ h _ ↦ hne (by decide) h
  | escaped hvalue =>
    show (if _ then _ else _ : Extent) = _
    rw [if_pos (by rw [hvalue]; rfl)]
    rfl

theorem lexes_of_quotes_string (h : Quotes '"' stringMarks v text) :
    Lexeme.Lexes ⟨.string, text⟩ := by
  obtain ⟨pieces, rfl, hpieces⟩ := h
  refine Lexeme.lexes_of_extent rfl (fun h ↦ absurd h (by decide)) rfl fun rest _ ↦ ?_
  show stringExtent _ = _
  rw [List.append_assoc, List.singleton_append, stringExtent_flatten hpieces, List.length_append]
  rfl

theorem lexes_of_quotes_rune (h : Quotes '\'' runeMarks [c] text) :
    Lexeme.Lexes ⟨.rune, text⟩ := by
  obtain ⟨piece, rfl, hpiece⟩ := quotes_singleton_iff.1 h
  refine Lexeme.lexes_of_extent rfl (fun h ↦ absurd h (by decide)) rfl fun rest _ ↦ ?_
  show runeExtent _ = _
  rw [List.append_assoc, List.singleton_append, runeExtent_piece hpiece, List.length_append]
  rfl

/-! ### What the scanner takes for a literal is a quotation -/

theorem exists_pieces_of_stringExtent (h : (stringExtent cs).kind = .string) :
    ∃ v pieces rest, cs = pieces.flatten ++ '"' :: rest ∧
      List.Forall₂ (Spells stringMarks) v pieces := by
  fun_induction stringExtent cs with
  | case3 cs => exact ⟨[], [], cs, rfl, .nil⟩
  | case5 code cs hcode ih =>
    obtain ⟨c, hc⟩ := Option.isSome_iff_exists.1 hcode
    obtain ⟨v, pieces, rest, rfl, hpieces⟩ := ih h
    exact ⟨c :: v, ['\\', code] :: pieces, rest, rfl, .cons (.escaped hc) hpieces⟩
  | case7 c cs hfeed hquote hlone hescape ih =>
    obtain ⟨v, pieces, rest, rfl, hpieces⟩ := ih h
    have hslash : c ≠ '\\' := by
      intro hc
      cases hcs : pieces.flatten ++ '"' :: rest with
      | nil => exact hlone hc hcs
      | cons d ds => exact hescape d ds hc hcs
    have hc : c ∉ stringMarks := by
      rw [stringMarks, List.mem_cons, List.mem_cons, List.mem_singleton, not_or, not_or]
      exact ⟨hquote, hslash, hfeed⟩
    exact ⟨c :: v, [c] :: pieces, rest, rfl, .cons (.plain hc) hpieces⟩
  | _ => cases h

theorem exists_piece_of_runeExtent (h : (runeExtent cs).kind = .rune) :
    ∃ c piece rest, cs = piece ++ '\'' :: rest ∧ Spells runeMarks c piece := by
  revert h
  fun_cases runeExtent cs with
  | case4 code cs hcode =>
    intro h
    obtain ⟨c, hc⟩ := Option.isSome_iff_exists.1 hcode
    rcases runeCloseExtent_cases cs with hfault | ⟨ds, rfl, -⟩
    · rw [show (runeCloseExtent cs).kind = .rune from h] at hfault
      cases hfault
    · exact ⟨c, _, ds, rfl, .escaped hc⟩
  | case6 c cs hquote hlone hescape =>
    intro h
    rcases runeCloseExtent_cases cs with hfault | ⟨ds, rfl, -⟩
    · rw [show (runeCloseExtent cs).kind = .rune from h] at hfault
      cases hfault
    · have hc : c ∉ runeMarks := by
        have hslash : c ≠ '\\' := fun hc ↦ hescape _ _ hc rfl
        rw [runeMarks, List.mem_cons, List.mem_singleton, not_or]
        exact ⟨hquote, hslash⟩
      exact ⟨c, [c], ds, rfl, .plain hc⟩
  | _ =>
    intro h
    cases h

end Literal

/-! ### Literals among the tokens -/

namespace Token

open Literal

/-- Whether a kind is that of a literal between quotes. -/
def Kind.isQuoted : Kind → Bool
  | .rune => true
  | .string => true
  | _ => false

theorem isQuoted_decimalExtent (part : DecimalPart) (afterLetter : Bool) (cs : List Char) :
    (decimalExtent part afterLetter cs).kind.isQuoted = false := by
  have hpart (part : DecimalPart) : part.kind.isQuoted = false := by
    cases part with
    | exponent hasDigit => cases hasDigit <;> rfl
    | _ => rfl
  fun_induction decimalExtent part afterLetter cs with
  | case1 part => exact hpart part
  | case10 part => exact hpart part
  | case5 => rfl
  | case6 => rfl
  | case7 => rfl
  -- in all other cases the number goes on
  | _ => assumption

theorem isQuoted_numberExtent (c : Char) (cs : List Char) :
    (numberExtent c cs).kind.isQuoted = false := by
  rcases Lexeme.numberExtent_cases c cs with ⟨r, ds, radix, -, -, -, heq⟩ | ⟨-, heq⟩
  · rw [heq, Extent.grow_kind, radixExtent]
    dsimp only
    split <;> rfl
  · rw [heq]
    exact isQuoted_decimalExtent _ _ _

theorem isQuoted_nameExtent (c : Char) (cs : List Char) :
    (nameExtent c cs).kind.isQuoted = false := by
  dsimp only [nameExtent]
  generalize String.ofList _ = word
  rw [Kind.ofWord?]
  split
  · rfl
  · cases Scalar.ofName? word <;> rfl

/-- **Only a quote starts a quoted literal.** -/
theorem extent_of_isQuoted {c : Char} {cs : List Char}
    (h : (extent c cs).kind.isQuoted = true) :
    c = '\'' ∧ extent c cs = runeExtent cs ∨ c = '"' ∧ extent c cs = stringExtent cs := by
  revert h
  fun_cases extent c cs with
  | case3 => exact fun h ↦ absurd h (Bool.eq_false_iff.1 (isQuoted_numberExtent c cs))
  | case4 _ _ _ hquote => exact fun _ ↦ .inl ⟨hquote, rfl⟩
  | case5 _ _ _ _ hquote => exact fun _ ↦ .inr ⟨hquote, rfl⟩
  | case6 => exact fun h ↦ absurd h (Bool.eq_false_iff.1 (isQuoted_nameExtent c cs))
  | _ =>
    intro h
    cases h

/-- **A string literal of a text is a quotation.** -/
theorem exists_quotes_of_string {s : String} {t : Token} (ht : t ∈ scan s)
    (hk : t.kind = .string) : ∃ v, Quotes '"' stringMarks v t.text := by
  obtain ⟨start, c, ds, rfl, -⟩ :=
    exists_read_of_mem_scanFrom ht (fun h ↦ Kind.noConfusion (hk.symm.trans h))
  have hk : (extent c ds).kind = .string := hk
  rcases extent_of_isQuoted (by rw [hk]; rfl) with ⟨-, hrune⟩ | ⟨rfl, hstring⟩
  · rw [hrune] at hk
    rcases kind_runeExtent ds with hkind | hkind <;> rw [hk] at hkind <;> cases hkind
  · rw [hstring] at hk
    obtain ⟨v, pieces, rest, rfl, hpieces⟩ := exists_pieces_of_stringExtent hk
    refine ⟨v, pieces, ?_, hpieces⟩
    rw [read, hstring, stringExtent_flatten hpieces]
    dsimp only
    rw [List.take_length_add_append]
    rfl

/-- **A rune literal of a text is a quotation** of one character. -/
theorem exists_quotes_of_rune {s : String} {t : Token} (ht : t ∈ scan s)
    (hk : t.kind = .rune) : ∃ c, Quotes '\'' runeMarks [c] t.text := by
  obtain ⟨start, c, ds, rfl, -⟩ :=
    exists_read_of_mem_scanFrom ht (fun h ↦ Kind.noConfusion (hk.symm.trans h))
  have hk : (extent c ds).kind = .rune := hk
  rcases extent_of_isQuoted (by rw [hk]; rfl) with ⟨rfl, hrune⟩ | ⟨-, hstring⟩
  · rw [hrune] at hk
    obtain ⟨c, piece, rest, rfl, hpiece⟩ := exists_piece_of_runeExtent hk
    refine ⟨c, quotes_singleton_iff.2 ⟨piece, ?_, hpiece⟩⟩
    rw [read, hrune, runeExtent_piece hpiece]
    dsimp only
    rw [List.take_length_add_append]
    rfl
  · rw [hstring] at hk
    rcases kind_stringExtent ds with hkind | hkind <;> rw [hk] at hkind <;> cases hkind

end Token

namespace Literal

open Token

/-- **Literals between quotes round-trip.** Every text can be quoted, and each of its quotations is
one string literal, of which it is the value; and so for runes and single characters. The other way
round, what is scanned as one of the two is a quotation of its value, so the value has one character
for each character or escape between the quotes, and no file is ever blamed for a rune without
one. -/
theorem scan_quotations :
    (∀ v, (∃ text, Quotes '"' stringMarks v text) ∧ ∀ text, Quotes '"' stringMarks v text →
      scan (String.ofList text) =
          [⟨.string, ⟨0, byteLength text⟩, text⟩, finishAt (byteLength text)] ∧
        string text = v) ∧
    (∀ c, (∃ text, Quotes '\'' runeMarks [c] text) ∧ ∀ text, Quotes '\'' runeMarks [c] text →
      scan (String.ofList text) =
          [⟨.rune, ⟨0, byteLength text⟩, text⟩, finishAt (byteLength text)] ∧
        rune? text = some c) ∧
    (∀ s, ∀ t ∈ scan s, (t.kind = .string → Quotes '"' stringMarks (string t.text) t.text) ∧
      (t.kind = .rune → ∃ c, rune? t.text = some c ∧ Quotes '\'' runeMarks [c] t.text)) ∧
    ∀ (p : Program) (source : SourceFile) (e : ParseError),
      (p.parseFile source).error? = some e → e.cause ≠ .malformedRune := by
  have hscan {k : Kind} {text : List Char} (h : Lexeme.Lexes ⟨k, text⟩) :
      scan (String.ofList text) =
        [⟨k, ⟨0, byteLength text⟩, text⟩, finishAt (byteLength text)] := by
    rw [scan, String.toList_ofList, scanList, h.scanFrom_eq 0, Lexeme.tokenAt, Nat.zero_add]
  refine ⟨fun v ↦ ⟨exists_quotes rfl _ v, fun text h ↦ ?_⟩,
    fun c ↦ ⟨exists_quotes rfl _ [c], fun text h ↦ ?_⟩, fun s t ht ↦ ⟨fun hk ↦ ?_, fun hk ↦ ?_⟩,
    fun p source e he hrune ↦ ?_⟩
  · exact ⟨hscan (lexes_of_quotes_string h), string_of_quotes h⟩
  · exact ⟨hscan (lexes_of_quotes_rune h), rune?_of_quotes h⟩
  · obtain ⟨v, hv⟩ := exists_quotes_of_string ht hk
    rwa [string_of_quotes hv]
  · obtain ⟨c, hc⟩ := exists_quotes_of_rune ht hk
    exact ⟨c, rune?_of_quotes hc, hc⟩
  · have hcause := Program.cause_of_isValue he (by rw [hrune]; rfl)
    rw [hrune] at hcause
    exact hcause.elim ParseError.Cause.noConfusion ParseError.Cause.noConfusion

/-- A quote, a backslash, a line feed and a tab, of which the tab is written as it is, and an
apostrophe that is escaped without need; and the rune of the apostrophe, where there is need. -/
theorem scan_quotations_escapes :
    let v := ['"', '\\', '\n', '\t', '\'']
    let text := ['"', '\\', '"', '\\', '\\', '\\', 'n', '\t', '\\', '\'', '"']
    Quotes '"' stringMarks v text ∧
      scan (String.ofList text) = [⟨.string, ⟨0, 11⟩, text⟩, finishAt 11] ∧
      string text = v ∧ rune? ['\'', '\\', '\'', '\''] = some '\'' ∧
      Quotes '"' stringMarks (string text) text := by
  intro v text
  have hstring : Quotes '"' stringMarks v text := by
    refine ⟨[['\\', '"'], ['\\', '\\'], ['\\', 'n'], ['\t'], ['\\', '\'']], rfl, ?_⟩
    exact .cons (.escaped rfl) (.cons (.escaped rfl) (.cons (.escaped rfl)
      (.cons (.plain (by decide)) (.cons (.escaped rfl) .nil))))
  have hrune : Quotes '\'' runeMarks ['\''] ['\'', '\\', '\'', '\''] :=
    quotes_singleton_iff.2 ⟨['\\', '\''], rfl, .escaped rfl⟩
  obtain ⟨hscan, hvalue⟩ := (scan_quotations.1 v).2 text hstring
  refine ⟨hstring, hscan, hvalue, ((scan_quotations.2.1 '\'').2 _ hrune).2, ?_⟩
  exact (scan_quotations.2.2.1 _ _ (hscan ▸ List.mem_cons_self)).1 rfl

end Literal

end FrontEnd
