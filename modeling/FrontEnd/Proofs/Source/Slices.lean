import FrontEnd.Source.Span

/-!
# Spans of a text, and what they cut out of it

Offsets count bytes and a text is a list of characters, so not every pair of offsets is a stretch of
the text. `Span.Cuts` says that a span is one, and which characters it cuts out. A text may be cut
only at **boundaries** between characters (`IsBoundary`), and two boundaries in order always cut out
something (`Span.exists_cuts_iff`).
-/

namespace FrontEnd

/-- The bytes of a text are those that its characters take. -/
theorem byteLength_toList (s : String) : byteLength s.toList = s.utf8ByteSize := by
  have h : ∀ cs : List Char, (String.ofList cs).utf8ByteSize = byteLength cs := by
    intro cs
    induction cs with
    | nil => rfl
    | cons c cs ih =>
      rw [← List.singleton_append, String.ofList_append, String.utf8ByteSize_append, ih,
        ← String.singleton_eq_ofList, String.utf8ByteSize_singleton, List.singleton_append,
        byteLength_cons]
  rw [← h, String.ofList_toList]

theorem byteLength_pos {cs : List Char} (h : cs ≠ []) : 0 < byteLength cs := by
  cases cs with
  | nil => exact absurd rfl h
  | cons c cs => exact Nat.lt_of_lt_of_le c.utf8Size_pos (Nat.le_add_right _ _)

/-- An offset at which a text may be cut: no character reaches across it. -/
def IsBoundary (text : List Char) (offset : Nat) : Prop :=
  ∃ before after, text = before ++ after ∧ offset = byteLength before

theorem isBoundary_zero (text : List Char) : IsBoundary text 0 :=
  ⟨[], text, rfl, rfl⟩

namespace Span

variable {s t : Span} {text word : List Char}

/-- **A span cuts a word out of a text.** -/
def Cuts (s : Span) (text word : List Char) : Prop :=
  ∃ before after, text = before ++ (word ++ after) ∧
    s = ⟨byteLength before, byteLength before + byteLength word⟩

/-- One span lies in another. -/
def Within (s t : Span) : Prop :=
  t.start ≤ s.start ∧ s.stop ≤ t.stop

/-- One span ends before another starts, or where it starts. -/
def Before (s t : Span) : Prop :=
  s.stop ≤ t.start

theorem Within.refl (s : Span) : s.Within s :=
  ⟨Nat.le_refl _, Nat.le_refl _⟩

theorem Within.trans {u : Span} (h : s.Within t) (h' : t.Within u) : s.Within u :=
  ⟨Nat.le_trans h'.1 h.1, Nat.le_trans h.2 h'.2⟩

theorem Cuts.le (h : s.Cuts text word) : s.start ≤ s.stop := by
  obtain ⟨before, after, -, rfl⟩ := h
  exact Nat.le_add_right _ _

theorem Cuts.lt (h : s.Cuts text word) (hword : word ≠ []) : s.start < s.stop := by
  obtain ⟨before, after, -, rfl⟩ := h
  exact Nat.lt_add_of_pos_right (byteLength_pos hword)

theorem Cuts.isBoundary_start (h : s.Cuts text word) : IsBoundary text s.start := by
  obtain ⟨before, after, rfl, rfl⟩ := h
  exact ⟨before, word ++ after, rfl, rfl⟩

theorem Cuts.isBoundary_stop (h : s.Cuts text word) : IsBoundary text s.stop := by
  obtain ⟨before, after, rfl, rfl⟩ := h
  exact ⟨before ++ word, after, (List.append_assoc _ _ _).symm, (byteLength_append _ _).symm⟩

/-- **Two boundaries in order** are what a span needs to cut out a word. -/
theorem exists_cuts_iff :
    (∃ word, s.Cuts text word) ↔
      IsBoundary text s.start ∧ IsBoundary text s.stop ∧ s.start ≤ s.stop := by
  constructor
  · rintro ⟨word, h⟩
    exact ⟨h.isBoundary_start, h.isBoundary_stop, h.le⟩
  · obtain ⟨start, stop⟩ := s
    rintro ⟨⟨before, after, rfl, rfl⟩, ⟨before', after', htext, rfl⟩, hle⟩
    rcases List.append_eq_append_iff.1 htext with ⟨word, rfl, rfl⟩ | ⟨more, rfl, rfl⟩
    · exact ⟨word, before, after', rfl, by rw [byteLength_append]⟩
    · -- the second cut is not behind the first one, so nothing is left between them
      have hmore : ¬ 0 < byteLength more := by
        dsimp only at hle
        rw [byteLength_append] at hle
        omega
      obtain rfl : more = [] := Classical.byContradiction fun h ↦ hmore (byteLength_pos h)
      exact ⟨[], before', after, by rw [List.append_nil]; rfl, by rw [List.append_nil]; rfl⟩

/-- A span of a text ends in the text. -/
theorem Cuts.stop_le (h : s.Cuts text word) : s.stop ≤ byteLength text := by
  obtain ⟨before, after, rfl, rfl⟩ := h
  simp only [byteLength_append]
  omega

/-- The ends of a span **fit in words** of 32 bits. -/
def FitsWord (s : Span) : Prop :=
  s.start < UInt32.size ∧ s.stop < UInt32.size

theorem Cuts.fitsWord (h : s.Cuts text word) (htext : byteLength text < UInt32.size) :
    s.FitsWord :=
  ⟨Nat.lt_of_le_of_lt (Nat.le_trans h.le h.stop_le) htext, Nat.lt_of_le_of_lt h.stop_le htext⟩

end Span

end FrontEnd
