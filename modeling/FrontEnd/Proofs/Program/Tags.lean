import FrontEnd.Proofs.Program.Parts

/-!
# Tags as they are written

While tags are read, each is put with those before it, and one whose name is taken is reported and
left out. What is written does not depend on that, so it can be said first: `Tag.read` gives the
tags that stand at a place of a file, all of them, and how reading them ends. Everything that
reading tags does to a program follows (`Build.tagsDone_metadata`): the tags that are kept are those
written, less the repeated ones, and each repeated tag has one report.
-/

namespace FrontEnd

/-! ### Repeated tags -/

namespace Tag

/-- The tags whose name has been **seen** before them. -/
def repeats (seen : List String) : List Tag → List Tag
  | [] => []
  | t :: ts => if t.name ∈ seen then t :: repeats seen ts else repeats (seen ++ [t.name]) ts

theorem repeats_eq_nil_iff {seen : List String} {ts : List Tag} :
    repeats seen ts = [] ↔ (∀ t ∈ ts, t.name ∉ seen) ∧ (ts.map (·.name)).Nodup := by
  induction ts generalizing seen with
  | nil => simp [repeats]
  | cons t ts ih =>
    rw [repeats]
    by_cases h : t.name ∈ seen
    · rw [if_pos h]
      simp [h]
    · rw [if_neg h, ih, List.map_cons, List.nodup_cons, List.forall_mem_cons]
      simp only [List.mem_append, List.mem_singleton, List.mem_map, not_or, not_exists, not_and]
      grind

theorem repeats_subset (seen : List String) (ts : List Tag) : repeats seen ts ⊆ ts := by
  induction ts generalizing seen with
  | nil => exact List.Subset.refl _
  | cons t ts ih =>
    rw [repeats]
    split
    · exact List.cons_subset_cons _ (ih _)
    · exact List.subset_cons_of_subset _ (ih _)

/-- The report of a repeated tag. -/
def repeatReport (moduleName : String) (source : SourceFile) (t : Tag) : Diagnostic :=
  .ofFile moduleName source .metadata "multiple meta tags with same name" t.nameSpan

end Tag

namespace Metadata

theorem contains_eq_true_iff {m : Metadata} {name : String} :
    m.contains name = true ↔ name ∈ m.tags.map (·.name) := by
  simp [contains, get?]

theorem insert?_of_mem {m : Metadata} {t : Tag} (h : t.name ∈ m.tags.map (·.name)) :
    m.insert? t = none :=
  dif_pos (contains_eq_true_iff.2 h)

theorem insert?_of_not_mem {m : Metadata} {t : Tag} (h : t.name ∉ m.tags.map (·.name)) :
    ∃ m', m.insert? t = some m' ∧ m'.tags = m.tags ++ [t] := by
  have hcontains : ¬ m.contains t.name = true := fun hm ↦ h (contains_eq_true_iff.1 hm)
  exact ⟨_, dif_neg hcontains, rfl⟩

/-- The tags with others behind them, except for those whose name is taken. -/
def addAll (m : Metadata) (ts : List Tag) : Metadata :=
  ts.foldl (fun m t ↦ (m.insert? t).getD m) m

theorem tags_addAll_subset (m : Metadata) (ts : List Tag) : (m.addAll ts).tags ⊆ m.tags ++ ts := by
  induction ts generalizing m with
  | nil => exact (List.append_nil _).symm ▸ List.Subset.refl _
  | cons t ts ih =>
    have hfirst : ((m.insert? t).getD m).tags ⊆ m.tags ++ [t] := by
      by_cases h : t.name ∈ m.tags.map (·.name)
      · rw [insert?_of_mem h]
        exact List.subset_append_left _ _
      · obtain ⟨m', hm', htags⟩ := insert?_of_not_mem h
        rw [hm', ← htags]
        exact List.Subset.refl _
    intro u hu
    rcases List.mem_append.1 (ih _ hu) with h | h
    · rcases List.mem_append.1 (hfirst h) with h | h
      · exact List.mem_append_left _ h
      · exact List.mem_append_right _ (List.mem_cons.2 (.inl (List.mem_singleton.1 h)))
    · exact List.mem_append_right _ (List.mem_cons_of_mem _ h)

end Metadata

/-! ### Reading tags -/

namespace Tag

open Build

/-- Tags up to the bracket that closes them, and the place behind it if it is reached. -/
def readTo : Nat → Cursor → List Tag × Except ParseError Cursor
  | 0, c => ([], .error c.unexpected)
  | n + 1, c =>
    match tag c with
    | .error e => ([], .error e)
    | .ok (t, c) =>
      if c.current.kind = .sign .comma then (t :: (readTo n c.next).1, (readTo n c.next).2)
      else ([t], (Parse.expect (.sign .rightBracket) c).map (·.2))

/-- **The tags that are written** in front of a definition, and the place behind them if all of them
can be read. -/
def read (c : Cursor) : List Tag × Except ParseError Cursor :=
  if c.current.kind = .sign .at then
    if c.next.current.kind = .sign .leftBracket then readTo c.next.next.rest.length c.next.next
    else
      match tag c.next with
      | .error e => ([], .error e)
      | .ok (t, c) => ([t], .ok c)
  else ([], .ok c)

end Tag

namespace Build

open Parse

/-- **What tags do to a draft**: they are put with others, and those that are repeated are reported.
The place behind them is reached if they can be read. -/
def TagsDone (read : List Tag × Except ParseError Cursor) (m : Metadata) (unique : Bool) (d : Draft)
    (r : Except ParseError (Metadata × Bool) × Draft) : Prop :=
  ∃ c, r = (read.2.map fun _ ↦
      (m.addAll read.1, unique && (Tag.repeats (m.tags.map (·.name)) read.1).isEmpty),
    { d with
      cursor := c
      diagnostics := d.diagnostics ++ (Tag.repeats (m.tags.map (·.name)) read.1).map
        (Tag.repeatReport d.program.name d.source) }) ∧
    ∀ c', read.2 = .ok c' → c = c'

theorem addTag_apply (m : Metadata) (t : Tag) (d : Draft) :
    addTag m t d = (.ok (m.addAll [t], (Tag.repeats (m.tags.map (·.name)) [t]).isEmpty),
      { d with
        diagnostics := d.diagnostics ++ (Tag.repeats (m.tags.map (·.name)) [t]).map
          (Tag.repeatReport d.program.name d.source) }) := by
  rw [addTag, Metadata.addAll, List.foldl_cons, List.foldl_nil, Tag.repeats]
  by_cases h : t.name ∈ m.tags.map (·.name)
  · rw [if_pos h, Metadata.insert?_of_mem h]
    rfl
  · obtain ⟨m', hm', -⟩ := Metadata.insert?_of_not_mem h
    rw [if_neg h, hm', Tag.repeats, List.map_nil, List.append_nil]
    rfl

/-- A tag and what comes behind it: it is put with the others before they are. -/
theorem repeats_cons (m : Metadata) (t : Tag) (ts : List Tag) :
    Tag.repeats (m.tags.map (·.name)) (t :: ts) = Tag.repeats (m.tags.map (·.name)) [t] ++
      Tag.repeats ((m.addAll [t]).tags.map (·.name)) ts := by
  rw [Tag.repeats, Tag.repeats, Tag.repeats, Metadata.addAll, List.foldl_cons, List.foldl_nil]
  by_cases h : t.name ∈ m.tags.map (·.name)
  · rw [if_pos h, if_pos h, Metadata.insert?_of_mem h]
    rfl
  · obtain ⟨m', hm', htags⟩ := Metadata.insert?_of_not_mem h
    rw [if_neg h, if_neg h, hm', Option.getD_some, htags, List.map_append]
    rfl

theorem TagsDone.cons {read : List Tag × Except ParseError Cursor} {m : Metadata} {unique : Bool}
    {d : Draft} {t : Tag} {r : Except ParseError (Metadata × Bool) × Draft}
    (h : TagsDone read (m.addAll [t]) (unique && (Tag.repeats (m.tags.map (·.name)) [t]).isEmpty)
      { d with
        diagnostics := d.diagnostics ++ (Tag.repeats (m.tags.map (·.name)) [t]).map
          (Tag.repeatReport d.program.name d.source) } r) :
    TagsDone (t :: read.1, read.2) m unique d r := by
  obtain ⟨c, rfl, hc⟩ := h
  refine ⟨c, ?_, hc⟩
  have hempty : (Tag.repeats (m.tags.map (·.name)) (t :: read.1)).isEmpty =
      ((Tag.repeats (m.tags.map (·.name)) [t]).isEmpty &&
        (Tag.repeats ((m.addAll [t]).tags.map (·.name)) read.1).isEmpty) := by
    rw [repeats_cons, Bool.eq_iff_iff]
    simp only [List.isEmpty_iff, List.append_eq_nil_iff, Bool.and_eq_true]
  dsimp only
  rw [hempty, Bool.and_assoc, repeats_cons m t read.1, List.map_append, List.append_assoc]
  rfl

theorem tagsDone_error {e : ParseError} {m : Metadata} {unique : Bool} (d : Draft) :
    TagsDone ([], .error e) m unique d (.error e, d) :=
  ⟨d.cursor, by rw [Tag.repeats, List.map_nil, List.append_nil]; rfl, fun _ h ↦ by cases h⟩

theorem tagsDone_tagsTo (n : Nat) (m : Metadata) (unique : Bool) (d : Draft) :
    TagsDone (Tag.readTo n d.cursor) m unique d (tagsTo n m unique d) := by
  induction n generalizing m unique d with
  | zero => exact tagsDone_error d
  | succ n ih =>
    rw [Tag.readTo, tagsTo, bind_apply, lift_apply]
    rcases tag d.cursor with e | ⟨t, c⟩
    · exact tagsDone_error d
    · dsimp only
      rw [bind_apply, addTag_apply]
      dsimp only
      rw [bind_apply, lift_apply, eat]
      dsimp only
      by_cases hcomma : c.current.kind = .sign .comma
      · rw [if_pos hcomma, if_pos hcomma]
        obtain ⟨c', hr, hc'⟩ := ih (m.addAll [t])
          (unique && (Tag.repeats (m.tags.map (·.name)) [t]).isEmpty)
          { d with
            cursor := c.next
            diagnostics := d.diagnostics ++ (Tag.repeats (m.tags.map (·.name)) [t]).map
              (Tag.repeatReport d.program.name d.source) }
        exact .cons ⟨c', hr, hc'⟩
      · rw [if_neg hcomma, if_neg hcomma]
        dsimp only
        rw [if_neg (by decide), bind_apply, lift_apply]
        dsimp only
        rcases expect (.sign .rightBracket) c with e | ⟨u, c'⟩
        · exact ⟨c, rfl, fun _ h ↦ by cases h⟩
        · exact ⟨c', rfl, fun _ h ↦ Except.ok.inj h⟩

/-- **What reading the tags of a definition does**, whether or not they can be read. -/
theorem tagsDone_metadata (d : Draft) :
    TagsDone (Tag.read d.cursor) .empty true d (metadata d) := by
  rw [Tag.read, metadata, bind_apply, lift_apply, eat]
  by_cases hat : d.cursor.current.kind = .sign .at
  · rw [if_pos hat, if_pos hat]
    dsimp only
    rw [if_pos rfl, bind_apply, lift_apply, eat]
    dsimp only
    by_cases hbracket : d.cursor.next.current.kind = .sign .leftBracket
    · rw [if_pos hbracket, if_pos hbracket]
      exact tagsDone_tagsTo _ _ _ _
    · rw [if_neg hbracket, if_neg hbracket]
      dsimp only
      rw [if_neg (by decide), bind_apply, lift_apply]
      dsimp only
      rcases tag d.cursor.next with e | ⟨t, c⟩
      · exact ⟨d.cursor.next, by rw [Tag.repeats, List.map_nil, List.append_nil]; rfl,
          fun _ h ↦ by cases h⟩
      · exact ⟨c, addTag_apply _ _ _, fun _ h ↦ Except.ok.inj h⟩
  · rw [if_neg hat, if_neg hat]
    exact ⟨d.cursor, by rw [Tag.repeats, List.map_nil, List.append_nil]; rfl,
      fun _ h ↦ Except.ok.inj h⟩

end Build

end FrontEnd
