import FrontEnd.Proofs.Source.Slices
import FrontEnd.Source.Lines
import Mathlib.Algebra.GroupWithZero.Nat

/-!
# Positions are what a plain scan counts

A reader who goes through a text from its start counts line feeds, and since the last one columns:
four for a tab, one for every other character (`scanned`). The index of a text does none of that. It
looks into its three tables around an offset, takes the distance in bytes from the start of the
line, and corrects it by continuation bytes and by tabs.

Every table of a text splits at an offset into what was marked before it and what was marked behind
it (`marked_append` with the bounds of its entries), so each search ends at the split, and what
remains between two searches was marked by the characters of one line. That gives the value of
`Lines.position`.

It also gives that of `Lines.wordPosition?`, the same computation on **words** of 32 bits with
binary searches, where a search may meet a table that is not partitioned and a step of arithmetic
may leave the words. The tables themselves are then filled in one pass over the text
(`Lines.wordIndex?`), one character at a time.
-/

namespace FrontEnd

/-! ### The plain scan -/

/-- The columns that a character takes. -/
def columns (c : Char) : Nat :=
  if c = '\t' then 4 else 1

/-- The characters since the last line feed. -/
def lastLine (cs : List Char) : List Char :=
  (cs.reverse.takeWhile (· ≠ '\n')).reverse

/-- **The position after some characters**, as a scan of them counts it. -/
def scanned (before : List Char) : Position :=
  ⟨1 + before.count '\n', 1 + ((lastLine before).map columns).sum⟩

/-- A text **breaks** before a line that holds no line feed, when what stands there is empty or
ends in one. -/
def Breaks (head line : List Char) : Prop :=
  '\n' ∉ line ∧ (head = [] ∨ ∃ lines, head = lines ++ ['\n'])

/-- Every text breaks before its last line. -/
theorem exists_breaks_lastLine (cs : List Char) :
    ∃ head, cs = head ++ lastLine cs ∧ Breaks head (lastLine cs) := by
  refine ⟨(cs.reverse.dropWhile (· ≠ '\n')).reverse, ?_, ?_, ?_⟩
  · rw [lastLine, ← List.reverse_append, List.takeWhile_append_dropWhile, List.reverse_reverse]
  · intro h
    have h := List.all_eq_true.1 List.all_takeWhile _ (List.mem_reverse.1 h)
    simp at h
  · cases hrest : cs.reverse.dropWhile (· ≠ '\n') with
    | nil => exact .inl rfl
    | cons c rest =>
      have hc : c = '\n' := by
        have h := List.head?_dropWhile_not (fun c ↦ decide (c ≠ '\n')) cs.reverse
        rw [hrest] at h
        simpa using h
      exact .inr ⟨rest.reverse, by rw [hc, List.reverse_cons]⟩

theorem sum_map_columns (cs : List Char) :
    (cs.map columns).sum = cs.length + cs.count '\t' * 3 := by
  induction cs with
  | nil => rfl
  | cons c cs ih =>
    rw [List.map_cons, List.sum_cons, ih, List.length_cons, List.count_cons, columns]
    by_cases hc : c = '\t'
    · rw [if_pos hc, if_pos (beq_iff_eq.2 hc)]
      omega
    · rw [if_neg hc, if_neg (mt beq_iff_eq.1 hc)]
      omega

/-! ### Marked characters -/

/-- The entries of a table: what `f` makes of the characters of a text that starts at an offset. -/
def marked {α : Type} (f : Nat × Char → Option α) (offset : Nat) (cs : List Char) : List α :=
  (withOffsets offset cs).filterMap f

/-- A line starts behind a line feed. -/
def lineFeed? (m : Nat × Char) : Option Nat :=
  if m.2 = '\n' then some (m.1 + 1) else none

/-- A tab is marked where it stands. -/
def tab? (m : Nat × Char) : Option Nat :=
  if m.2 = '\t' then some m.1 else none

/-- A character of more than one byte is marked where it stands, with its continuation bytes. -/
def wide? (m : Nat × Char) : Option (Nat × Nat) :=
  if 1 < m.2.utf8Size then some (m.1, m.2.utf8Size - 1) else none

theorem Lines.ofList_eq (text : List Char) :
    Lines.ofList text =
      ⟨0 :: marked lineFeed? 0 text, marked tab? 0 text, marked wide? 0 text⟩ :=
  rfl

theorem withOffsets_append (offset : Nat) (cs ds : List Char) :
    withOffsets offset (cs ++ ds) =
      withOffsets offset cs ++ withOffsets (offset + byteLength cs) ds := by
  induction cs generalizing offset with
  | nil => rfl
  | cons c cs ih =>
    rw [List.cons_append, withOffsets, withOffsets, ih, List.cons_append, byteLength_cons,
      Nat.add_assoc]

/-- **A table splits** where its text does. -/
theorem marked_append {α : Type} (f : Nat × Char → Option α) (offset : Nat) (cs ds : List Char) :
    marked f offset (cs ++ ds) = marked f offset cs ++ marked f (offset + byteLength cs) ds := by
  rw [marked, withOffsets_append, List.filterMap_append]
  rfl

theorem marked_cons {α : Type} (f : Nat × Char → Option α) (offset : Nat) (c : Char)
    (cs : List Char) :
    marked f offset (c :: cs) = (f (offset, c)).toList ++ marked f (offset + c.utf8Size) cs := by
  rw [marked, withOffsets, List.filterMap_cons]
  cases f (offset, c) with
  | none => rfl
  | some a => rfl

section Bounds

variable {offset : Nat} {cs : List Char}

theorem withOffsets_bounds {m : Nat × Char} (h : m ∈ withOffsets offset cs) :
    offset ≤ m.1 ∧ m.1 + m.2.utf8Size ≤ offset + byteLength cs := by
  induction cs generalizing offset with
  | nil => cases h
  | cons c cs ih =>
    rw [byteLength_cons]
    rcases List.mem_cons.1 h with rfl | h
    · exact ⟨Nat.le_refl _, by dsimp only; omega⟩
    · have hm := ih h
      exact ⟨by omega, by omega⟩

theorem lineFeed?_bounds {n : Nat} (h : n ∈ marked lineFeed? offset cs) :
    offset < n ∧ n ≤ offset + byteLength cs := by
  obtain ⟨m, hm, hn⟩ := List.mem_filterMap.1 h
  obtain ⟨-, ⟨⟩⟩ := Option.ite_none_right_eq_some.1 hn
  have hb := withOffsets_bounds hm
  have hpos := m.2.utf8Size_pos
  exact ⟨by omega, by omega⟩

end Bounds

/-- Entries of a table **stand** at the characters that they are made of. -/
def Stands {α : Type} (f : Nat × Char → Option α) (key : α → Nat) : Prop :=
  ∀ offset cs, ∀ a ∈ marked f offset cs, offset ≤ key a ∧ key a < offset + byteLength cs

theorem stands_tab? : Stands tab? fun n ↦ n := by
  intro offset cs n h
  obtain ⟨m, hm, hn⟩ := List.mem_filterMap.1 h
  obtain ⟨-, ⟨⟩⟩ := Option.ite_none_right_eq_some.1 hn
  have hb := withOffsets_bounds hm
  have hpos := m.2.utf8Size_pos
  exact ⟨hb.1, by dsimp only; omega⟩

theorem stands_wide? : Stands wide? Prod.fst := by
  intro offset cs w h
  obtain ⟨m, hm, hw⟩ := List.mem_filterMap.1 h
  obtain ⟨hsize, ⟨⟩⟩ := Option.ite_none_right_eq_some.1 hw
  have hb := withOffsets_bounds hm
  exact ⟨hb.1, by dsimp only; omega⟩

/-- A table that marks one character has as many entries as there are of it. -/
theorem length_marked {f : Nat × Char → Option Nat} {c : Char}
    (hf : ∀ m, (f m).isSome = (m.2 == c)) (offset : Nat) (cs : List Char) :
    (marked f offset cs).length = cs.count c := by
  induction cs generalizing offset with
  | nil => rfl
  | cons d cs ih =>
    have hd : (f (offset, d)).isSome = (d == c) := hf (offset, d)
    rw [marked_cons, List.length_append, ih, List.count_cons, ← hd, Nat.add_comm]
    cases f (offset, d) with
    | none => rfl
    | some n => rfl

theorem length_marked_lineFeed? (offset : Nat) (cs : List Char) :
    (marked lineFeed? offset cs).length = cs.count '\n' := by
  refine length_marked (fun m ↦ ?_) offset cs
  by_cases h : m.2 = '\n' <;> simp [lineFeed?, h]

theorem length_marked_tab? (offset : Nat) (cs : List Char) :
    (marked tab? offset cs).length = cs.count '\t' := by
  refine length_marked (fun m ↦ ?_) offset cs
  by_cases h : m.2 = '\t' <;> simp [tab?, h]

/-- Continuation bytes are what the bytes of a text are more than its characters. -/
theorem sum_marked_wide? (offset : Nat) (cs : List Char) :
    ((marked wide? offset cs).map Prod.snd).sum + cs.length = byteLength cs := by
  induction cs generalizing offset with
  | nil => rfl
  | cons c cs ih =>
    have h := ih (offset + c.utf8Size)
    have hpos := c.utf8Size_pos
    rw [marked_cons, List.map_append, List.sum_append, List.length_cons, byteLength_cons, wide?]
    by_cases hc : 1 < c.utf8Size
    · rw [if_pos hc]
      simp only [Option.toList_some, List.map_cons, List.map_nil, List.sum_cons, List.sum_nil]
      omega
    · rw [if_neg hc]
      simp only [Option.toList_none, List.map_nil, List.sum_nil]
      omega

theorem length_le_byteLength (cs : List Char) : cs.length ≤ byteLength cs := by
  rw [← sum_marked_wide? 0 cs]
  exact Nat.le_add_left _ _

/-! ### Searches in a table -/

section Search

variable {α : Type} {p : α → Bool} {front middle back : List α}

/-- A test **parts** a table: it holds of everything in front, and of nothing in the back. -/
def Parts (p : α → Bool) (front back : List α) : Prop :=
  (∀ a ∈ front, p a = true) ∧ ∀ a ∈ back, p a = false

theorem Parts.takeWhile_eq (h : Parts p front back) : (front ++ back).takeWhile p = front := by
  rw [List.takeWhile_append_of_pos h.1]
  cases back with
  | nil => exact List.append_nil front
  | cons a back =>
    rw [List.takeWhile_cons, h.2 a List.mem_cons_self, if_neg Bool.false_ne_true, List.append_nil]

theorem Parts.dropWhile_eq (h : Parts p front back) : (front ++ back).dropWhile p = back := by
  have hall := List.takeWhile_append_dropWhile (p := p) (l := front ++ back)
  rw [h.takeWhile_eq] at hall
  exact List.append_cancel_left hall

/-- What lies **between two bounds** is what the lower bound leaves behind and the upper one keeps
in front. -/
theorem filter_between {key : α → Nat} {start stop : Nat}
    (hstart : Parts (fun a ↦ key a < start) front (middle ++ back))
    (hstop : Parts (fun a ↦ key a < stop) (front ++ middle) back) :
    (front ++ (middle ++ back)).filter (fun a ↦ start ≤ key a && key a < stop) = middle := by
  have hfront : ∀ a ∈ front, ¬ (decide (start ≤ key a) && decide (key a < stop)) = true := by
    intro a ha
    have hlt := of_decide_eq_true (hstart.1 a ha)
    simp [Nat.not_le.2 hlt]
  have hmiddle : ∀ a ∈ middle, (decide (start ≤ key a) && decide (key a < stop)) = true := by
    intro a ha
    have hle := of_decide_eq_false (hstart.2 a (List.mem_append_left _ ha))
    have hlt := of_decide_eq_true (hstop.1 a (List.mem_append_right _ ha))
    simp [Nat.not_lt.1 hle, hlt]
  have hback : ∀ a ∈ back, ¬ (decide (start ≤ key a) && decide (key a < stop)) = true := by
    intro a ha
    have hle := of_decide_eq_false (hstop.2 a ha)
    simp [hle]
  rw [List.filter_append, List.filter_append, List.filter_eq_nil_iff.2 hfront,
    List.filter_eq_self.2 hmiddle, List.filter_eq_nil_iff.2 hback, List.nil_append,
    List.append_nil]

end Search

/-- An offset **divides** a text: it is the boundary between two parts of it or, when the second
part is empty, any place behind the first. -/
def Divides (before after : List Char) (offset : Nat) : Prop :=
  byteLength before ≤ offset ∧ (after = [] ∨ offset = byteLength before)

theorem divides_byteLength (before after : List Char) :
    Divides before after (byteLength before) :=
  ⟨Nat.le_refl _, .inr rfl⟩

namespace Divides

variable {before after : List Char} {offset : Nat}

/-- What is marked behind the division, wherever that is, is marked from the offset on. -/
theorem forall_marked {α : Type} {f : Nat × Char → Option α} {P : Nat → α → Prop}
    (h : Divides before after offset) (hP : ∀ o cs, ∀ a ∈ marked f o cs, P o a) :
    ∀ a ∈ marked f (byteLength before) after, P offset a := by
  obtain ⟨-, rfl | rfl⟩ := h
  · intro a ha
    cases ha
  · exact hP _ _

theorem parts_starts (h : Divides before after offset) :
    Parts (fun n ↦ n ≤ offset) (0 :: marked lineFeed? 0 before)
      (marked lineFeed? (byteLength before) after) := by
  constructor
  · intro n hn
    rcases List.mem_cons.1 hn with rfl | hn
    · exact decide_eq_true (Nat.zero_le _)
    · have hb := (lineFeed?_bounds hn).2
      rw [Nat.zero_add] at hb
      exact decide_eq_true (Nat.le_trans hb h.1)
  · intro n hn
    have hlt := h.forall_marked (P := fun o n ↦ o < n) (fun _ _ _ hm ↦ (lineFeed?_bounds hm).1) n hn
    exact decide_eq_false (Nat.not_le.2 hlt)

end Divides

namespace Stands

variable {α : Type} {f : Nat × Char → Option α} {key : α → Nat}
  {head line before after : List Char} {offset : Nat}

theorem parts (hf : Stands f key) (h : Divides before after offset) :
    Parts (fun a ↦ key a < offset) (marked f 0 before) (marked f (byteLength before) after) := by
  constructor
  · intro a ha
    have hb := (hf _ _ a ha).2
    rw [Nat.zero_add] at hb
    exact decide_eq_true (Nat.lt_of_lt_of_le hb h.1)
  · intro a ha
    have hle := h.forall_marked (P := fun o a ↦ o ≤ key a) (fun o cs a ha ↦ (hf o cs a ha).1) a ha
    exact decide_eq_false (Nat.not_lt.2 hle)

/-- **The two searches around a line**: from its start, and up to an offset in it. -/
theorem parts_line (hf : Stands f key) (h : Divides (head ++ line) after offset) :
    Parts (fun a ↦ key a < byteLength head) (marked f 0 head)
        (marked f (byteLength head) line ++ marked f (byteLength (head ++ line)) after) ∧
      Parts (fun a ↦ key a < offset) (marked f 0 head ++ marked f (byteLength head) line)
        (marked f (byteLength (head ++ line)) after) := by
  have hstart := hf.parts (divides_byteLength head (line ++ after))
  have hstop := hf.parts h
  rw [marked_append, ← byteLength_append] at hstart
  rw [marked_append, Nat.zero_add] at hstop
  exact ⟨hstart, hstop⟩

end Stands

/-! ### The position of an offset -/

/-- The last line starts where its text breaks. -/
theorem getLast?_marked_lineFeed? {head line : List Char} (h : Breaks head line) :
    (0 :: marked lineFeed? 0 (head ++ line)).getLast? = some (byteLength head) := by
  have hline : marked lineFeed? (0 + byteLength head) line = [] := by
    rw [← List.length_eq_zero_iff, length_marked_lineFeed?]
    exact List.count_eq_zero.2 h.1
  rw [marked_append, hline, List.append_nil]
  rcases h.2 with rfl | ⟨lines, rfl⟩
  · rfl
  · have hfeed : marked lineFeed? (0 + byteLength lines) ['\n'] = [byteLength lines + 1] := by
      rw [Nat.zero_add]
      rfl
    rw [marked_append, hfeed, ← List.cons_append, List.getLast?_append, byteLength_append]
    rfl

namespace Lines

variable {head line before after : List Char} {offset : Nat}

/-- The tables of a text in two parts. -/
theorem ofList_append (before after : List Char) :
    ofList (before ++ after) =
      ⟨(0 :: marked lineFeed? 0 before) ++ marked lineFeed? (byteLength before) after,
        marked tab? 0 before ++ marked tab? (byteLength before) after,
        marked wide? 0 before ++ marked wide? (byteLength before) after⟩ := by
  rw [ofList_eq, marked_append, marked_append, marked_append, Nat.zero_add]
  rfl

theorem startsUpTo_ofList (h : Divides before after offset) :
    (ofList (before ++ after)).startsUpTo offset = 0 :: marked lineFeed? 0 before := by
  rw [startsUpTo, ofList_append]
  exact h.parts_starts.takeWhile_eq

theorem lineStart_ofList (h : Divides (head ++ line) after offset) (hbreak : Breaks head line) :
    (ofList (head ++ line ++ after)).lineStart offset = byteLength head := by
  rw [lineStart, startsUpTo_ofList h, List.getLastD_eq_getLast?, getLast?_marked_lineFeed? hbreak]
  rfl

/-- The tables of a text around one line of it. -/
theorem ofList_line (head line after : List Char) :
    ofList (head ++ line ++ after) =
      ⟨(0 :: marked lineFeed? 0 (head ++ line)) ++
          marked lineFeed? (byteLength (head ++ line)) after,
        marked tab? 0 head ++
          (marked tab? (byteLength head) line ++ marked tab? (byteLength (head ++ line)) after),
        marked wide? 0 head ++
          (marked wide? (byteLength head) line ++
            marked wide? (byteLength (head ++ line)) after)⟩ := by
  rw [ofList_append, marked_append tab?, marked_append wide?, Nat.zero_add, List.append_assoc,
    List.append_assoc]

theorem tabsIn_ofList (h : Divides (head ++ line) after offset) :
    (ofList (head ++ line ++ after)).tabsIn (byteLength head) offset = line.count '\t' := by
  obtain ⟨hstart, hstop⟩ := stands_tab?.parts_line h
  rw [tabsIn, ofList_line, List.countP_eq_length_filter, filter_between hstart hstop,
    length_marked_tab?]

theorem continuationBytesIn_ofList (h : Divides (head ++ line) after offset) :
    (ofList (head ++ line ++ after)).continuationBytesIn (byteLength head) offset =
      ((marked wide? (byteLength head) line).map Prod.snd).sum := by
  obtain ⟨hstart, hstop⟩ := stands_wide?.parts_line h
  rw [continuationBytesIn, ofList_line, filter_between hstart hstop, List.sum_eq_foldl,
    List.foldl_map]

/-- The position of an offset, from the tables of its line. -/
theorem position_line (h : Divides (head ++ line) after offset) (hbreak : Breaks head line) :
    (ofList (head ++ line ++ after)).position offset =
      ⟨(head ++ line).count '\n' + 1,
        offset - byteLength head - ((marked wide? (byteLength head) line).map Prod.snd).sum + 1 +
          line.count '\t' * (tabWidth - 1)⟩ := by
  rw [position, lineStart_ofList h hbreak, startsUpTo_ofList h, tabsIn_ofList h,
    continuationBytesIn_ofList h, List.length_cons, length_marked_lineFeed?]

/-- **The position of an offset** counts the characters before it and, behind the text, the bytes
up to it. -/
theorem position_ofList (h : Divides before after offset) :
    (ofList (before ++ after)).position offset =
      ⟨(scanned before).line, (scanned before).column + (offset - byteLength before)⟩ := by
  obtain ⟨head, hbefore, hbreak⟩ := exists_breaks_lastLine before
  rw [scanned, sum_map_columns]
  generalize lastLine before = line at hbefore hbreak
  subst hbefore
  have hsum := sum_marked_wide? (byteLength head) line
  have hle := h.1
  rw [byteLength_append] at hle
  rw [position_line h hbreak, byteLength_append, tabWidth, Nat.add_comm _ 1, Position.mk.injEq]
  exact ⟨rfl, by dsimp only; omega⟩

end Lines

/-! ### The computation on words -/

namespace Word

/-- A number as a word of 32 bits, when it is one. -/
def ofNat? (n : Nat) : Option Nat :=
  if n < 2 ^ 32 then some n else none

/-- The sum of two words, unless it is too large. -/
def add? (m n : Nat) : Option Nat :=
  ofNat? (m + n)

/-- The product of two words, unless it is too large. -/
def mul? (m n : Nat) : Option Nat :=
  ofNat? (m * n)

/-- The difference of two words, unless it is below zero. -/
def sub? (m n : Nat) : Option Nat :=
  if n ≤ m then some (m - n) else none

/-- The sum of words from the left, unless it gets too large on the way. -/
def sum? (ns : List Nat) : Option Nat :=
  ns.foldlM add? 0

theorem ofNat?_eq {n : Nat} (h : n < 2 ^ 32) : ofNat? n = some n :=
  if_pos h

theorem add?_eq {m n : Nat} (h : m + n < 2 ^ 32) : add? m n = some (m + n) :=
  ofNat?_eq h

theorem mul?_eq {m n : Nat} (h : m * n < 2 ^ 32) : mul? m n = some (m * n) :=
  ofNat?_eq h

theorem sub?_eq {m n : Nat} (h : n ≤ m) : sub? m n = some (m - n) :=
  if_pos h

theorem sum?_eq {ns : List Nat} (h : ns.sum < 2 ^ 32) : sum? ns = some ns.sum := by
  have hfold : ∀ (l : List Nat) (m : Nat), m + l.sum < 2 ^ 32 →
      l.foldlM add? m = some (m + l.sum) := by
    intro l
    induction l with
    | nil =>
      intro m _
      rfl
    | cons n l ih =>
      intro m hm
      rw [List.sum_cons, ← Nat.add_assoc] at hm
      rw [List.foldlM_cons, add?_eq (by omega), Option.bind_eq_bind, Option.bind_some, ih _ hm,
        List.sum_cons, Nat.add_assoc]
  rw [sum?, hfold ns 0 (by rwa [Nat.zero_add]), Nat.zero_add]

end Word

namespace Lines

/-- One character with its offset enters the tables. -/
def push? (l : Lines) (m : Nat × Char) : Option Lines := do
  let offset ← Word.ofNat? m.1
  if m.2 = '\n' then
    return { l with starts := l.starts ++ [← Word.add? offset 1] }
  else if m.2 = '\t' then
    return { l with tabs := l.tabs ++ [offset] }
  else if 1 < m.2.utf8Size then
    return { l with wide := l.wide ++ [(offset, ← Word.sub? m.2.utf8Size 1)] }
  else
    return l

/-- **The index of a text, on words**: its characters enter the tables one after the other. -/
def wordIndex? (text : String) : Option Lines :=
  (withOffsets 0 text.toList).foldlM push? ⟨[0], [], []⟩

/-- The number of entries at the start of a table that pass a test. A binary search finds it when
the entries that pass all stand before the others, and may find anything when they do not. -/
def partitionPoint? {α : Type} (p : α → Bool) (l : List α) : Option Nat :=
  if (l.dropWhile p).any p then none else some (l.takeWhile p).length

/-- The entries of a table from one index up to another, when the two are in order and in it. -/
def stretch? {α : Type} (l : List α) (start stop : Nat) : Option (List α) :=
  if start ≤ stop ∧ stop ≤ l.length then some ((l.take stop).drop start) else none

/-- The column of an offset on words, from where its line starts and from the continuation bytes and
the tabs in between. -/
def wordColumn? (offset start extra tabs : Nat) : Option Nat := do
  let bytes ← Word.sub? offset start
  let characters ← Word.sub? bytes extra
  let column ← Word.add? characters 1
  Word.add? column (← Word.mul? (← Word.ofNat? tabs) (tabWidth - 1))

/-- **The position of an offset, on words.** It is found by five binary searches, and there is none
when a search has no answer, an index is out of its table, or a number is not a word. -/
def wordPosition? (l : Lines) (offset : Nat) : Option Position := do
  let line := (← partitionPoint? (fun n ↦ n ≤ offset) l.starts) - 1
  let start ← l.starts[line]?
  let tabsBefore ← partitionPoint? (fun n ↦ n < offset) l.tabs
  let tabs ← Word.sub? tabsBefore (← partitionPoint? (fun n ↦ n < start) l.tabs)
  let wideStart ← partitionPoint? (fun w ↦ w.1 < start) l.wide
  let wide ← stretch? l.wide wideStart (← partitionPoint? (fun w ↦ w.1 < offset) l.wide)
  let extra ← Word.sum? (wide.map Prod.snd)
  let column ← wordColumn? offset start extra tabs
  return ⟨← Word.add? (← Word.ofNat? line) 1, column⟩

/-- **One step** of building the tables. -/
theorem push?_eq (l : Lines) {m : Nat × Char} (h : m.1 + m.2.utf8Size < 2 ^ 32) :
    l.push? m = some ⟨l.starts ++ (lineFeed? m).toList, l.tabs ++ (tab? m).toList,
      l.wide ++ (wide? m).toList⟩ := by
  obtain ⟨offset, c⟩ := m
  dsimp only at h
  have hpos := c.utf8Size_pos
  have hoffset : Word.ofNat? offset = some offset := Word.ofNat?_eq (by omega)
  by_cases hfeed : c = '\n'
  · subst hfeed
    have hadd : Word.add? offset 1 = some (offset + 1) := Word.add?_eq (by omega)
    have hsize : ¬ 1 < '\n'.utf8Size := by decide
    simp [push?, lineFeed?, tab?, wide?, hoffset, hadd, hsize]
  · by_cases htab : c = '\t'
    · subst htab
      have hsize : ¬ 1 < '\t'.utf8Size := by decide
      simp [push?, lineFeed?, tab?, wide?, hoffset, hsize]
    · by_cases hsize : 1 < c.utf8Size
      · have hsub : Word.sub? c.utf8Size 1 = some (c.utf8Size - 1) := Word.sub?_eq hpos
        simp [push?, lineFeed?, tab?, wide?, hoffset, hfeed, htab, hsize, hsub]
      · simp [push?, lineFeed?, tab?, wide?, hoffset, hfeed, htab, hsize]

/-- **The whole run**: every character of a text enters the tables. -/
theorem foldlM_push?_eq (cs : List Char) (offset : Nat) (l : Lines)
    (h : offset + byteLength cs < 2 ^ 32) :
    (withOffsets offset cs).foldlM push? l =
      some ⟨l.starts ++ marked lineFeed? offset cs, l.tabs ++ marked tab? offset cs,
        l.wide ++ marked wide? offset cs⟩ := by
  induction cs generalizing offset l with
  | nil => simp [withOffsets, marked]
  | cons c cs ih =>
    rw [byteLength_cons] at h
    have hpush := l.push?_eq (m := (offset, c)) (by dsimp only; omega)
    rw [withOffsets, List.foldlM_cons, hpush, Option.bind_eq_bind, Option.bind_some,
      ih _ _ (by omega)]
    simp only [marked_cons, List.append_assoc]

theorem wordIndex?_eq {text : String} (h : text.utf8ByteSize < 2 ^ 32) :
    wordIndex? text = some (ofString text) := by
  rw [← byteLength_toList] at h
  rw [wordIndex?, foldlM_push?_eq _ _ _ (by rwa [Nat.zero_add])]
  rfl

theorem partitionPoint?_eq {α : Type} {p : α → Bool} {front back : List α}
    (h : Parts p front back) : partitionPoint? p (front ++ back) = some front.length := by
  have hback : back.any p = false := List.any_eq_false.2 fun a ha ↦ Bool.eq_false_iff.1 (h.2 a ha)
  rw [partitionPoint?, h.takeWhile_eq, h.dropWhile_eq, hback, if_neg Bool.false_ne_true]

theorem stretch?_eq {α : Type} (front middle back : List α) :
    stretch? (front ++ (middle ++ back)) front.length (front ++ middle).length = some middle := by
  have hin : front.length ≤ (front ++ middle).length ∧
      (front ++ middle).length ≤ (front ++ (middle ++ back)).length := by
    simp only [List.length_append]
    omega
  rw [stretch?, if_pos hin, ← List.append_assoc, List.take_left, List.drop_left]

/-- Below a quarter of the words, four columns for each byte still fit. -/
theorem wordColumn?_eq {offset start extra tabs : Nat} (hoffset : offset < 2 ^ 30)
    (hstart : start ≤ offset) (hextra : extra + tabs ≤ offset - start) :
    wordColumn? offset start extra tabs =
      some (offset - start - extra + 1 + tabs * (tabWidth - 1)) := by
  rw [wordColumn?, tabWidth, Word.sub?_eq hstart, Option.bind_eq_bind, Option.bind_some,
    Word.sub?_eq (by omega), Option.bind_some, Word.add?_eq (by omega), Option.bind_some,
    Word.ofNat?_eq (by omega), Option.bind_some, Word.mul?_eq (by omega), Option.bind_some,
    Word.add?_eq (by omega)]

/-- The line that the first search finds starts where the text breaks. -/
theorem getElem?_starts {head line : List Char} (h : Breaks head line) (after : List Char) :
    ((0 :: marked lineFeed? 0 (head ++ line)) ++
      marked lineFeed? (byteLength (head ++ line)) after)[
        (0 :: marked lineFeed? 0 (head ++ line)).length - 1]? = some (byteLength head) := by
  have hlast : (0 :: marked lineFeed? 0 (head ++ line)).length - 1 <
      (0 :: marked lineFeed? 0 (head ++ line)).length := by simp
  rw [List.getElem?_append_left hlast, ← List.getLast?_eq_getElem?, getLast?_marked_lineFeed? h]

variable {before after : List Char} {offset : Nat}

/-- The searches around an offset succeed, and no step of the arithmetic leaves the words. -/
theorem wordPosition?_ofList (h : Divides before after offset) (hoffset : offset < 2 ^ 30) :
    (ofList (before ++ after)).wordPosition? offset =
      some ((ofList (before ++ after)).position offset) := by
  obtain ⟨head, hbefore, hbreak⟩ := exists_breaks_lastLine before
  generalize lastLine before = line at hbefore hbreak
  subst hbefore
  have hle := h.1
  have hsum := sum_marked_wide? (byteLength head) line
  have hlines : (head ++ line).count '\n' ≤ byteLength (head ++ line) :=
    Nat.le_trans List.count_le_length (length_le_byteLength _)
  have htabs : line.count '\t' ≤ line.length := List.count_le_length
  rw [byteLength_append] at hle hlines
  -- the five searches
  have hstarts := partitionPoint?_eq h.parts_starts
  have hstart := getElem?_starts hbreak after
  obtain ⟨htabStart, htabStop⟩ := stands_tab?.parts_line h
  obtain ⟨hwideStart, hwideStop⟩ := stands_wide?.parts_line h
  have htabStop := partitionPoint?_eq htabStop
  have hwideStop := partitionPoint?_eq hwideStop
  rw [List.append_assoc] at htabStop hwideStop
  rw [position_line h hbreak, ofList_line]
  have htabSub : Word.sub? (marked tab? 0 head ++ marked tab? (byteLength head) line).length
      (marked tab? 0 head).length = some (line.count '\t') := by
    rw [List.length_append, Word.sub?_eq (Nat.le_add_right _ _), Nat.add_sub_cancel_left,
      length_marked_tab?]
  simp only [wordPosition?, hstarts, hstart, htabStop, hwideStop, partitionPoint?_eq htabStart,
    partitionPoint?_eq hwideStart, stretch?_eq, htabSub, Option.bind_eq_bind, Option.bind_some]
  rw [Word.sum?_eq (by omega), Option.bind_some, wordColumn?_eq hoffset (by omega) (by omega),
    Option.bind_some, List.length_cons, Nat.add_sub_cancel, length_marked_lineFeed?,
    Word.ofNat?_eq (by omega), Option.bind_some, Word.add?_eq (by omega), Option.bind_some]
  rfl

/-- **The index of a text agrees with a plain scan.** At every boundary between characters it gives
the position that the scan has counted so far, and behind the text the last line goes on by one
column a byte. For a text and an offset below 2 ^ 30 the same comes out on words: building the index
and every search and step of arithmetic succeed. -/
theorem position_eq_scanned (text : String) (htext : text.utf8ByteSize < 2 ^ 30) :
    wordIndex? text = some (ofString text) ∧
      (∀ before after, text.toList = before ++ after →
        (ofString text).position (byteLength before) = scanned before ∧
          (ofString text).wordPosition? (byteLength before) = some (scanned before)) ∧
      ∀ past, text.utf8ByteSize + past < 2 ^ 30 →
        (ofString text).position (text.utf8ByteSize + past) =
            ⟨(scanned text.toList).line, (scanned text.toList).column + past⟩ ∧
          (ofString text).wordPosition? (text.utf8ByteSize + past) =
            some ⟨(scanned text.toList).line, (scanned text.toList).column + past⟩ := by
  refine ⟨wordIndex?_eq (by omega), fun before after hsplit ↦ ?_, fun past hpast ↦ ?_⟩
  · have hdivides := divides_byteLength before after
    have hbefore : byteLength before < 2 ^ 30 := by
      rw [← byteLength_toList, hsplit, byteLength_append] at htext
      omega
    have hposition : (ofString text).position (byteLength before) = scanned before := by
      rw [ofString, hsplit, position_ofList hdivides, Nat.sub_self]
      rfl
    refine ⟨hposition, ?_⟩
    rw [← hposition, ofString, hsplit]
    exact wordPosition?_ofList hdivides hbefore
  · rw [← byteLength_toList] at hpast ⊢
    have hdivides : Divides text.toList [] (byteLength text.toList + past) :=
      ⟨Nat.le_add_right _ _, .inl rfl⟩
    have hposition := position_ofList hdivides
    have hword := wordPosition?_ofList hdivides hpast
    rw [hposition] at hword
    rw [List.append_nil, Nat.add_sub_cancel_left] at hposition hword
    exact ⟨hposition, hword⟩

/-- The second line of this text starts with a tab and a character of three bytes. The position
behind the two is that of byte seven, and byte ten lies two behind the end. -/
theorem position_eq_scanned_tab :
    let l := ofString "é\n\t→x"
    wordIndex? "é\n\t→x" = some l ∧
      (l.position 7 = ⟨2, 6⟩ ∧ l.wordPosition? 7 = some ⟨2, 6⟩) ∧
      l.position 10 = ⟨2, 9⟩ ∧ l.wordPosition? 10 = some ⟨2, 9⟩ := by
  obtain ⟨hindex, hinside, hpast⟩ := position_eq_scanned "é\n\t→x" (by decide)
  exact ⟨hindex, hinside ['é', '\n', '\t', '→'] ['x'] (by decide), hpast 2 (by decide)⟩

end Lines

end FrontEnd
