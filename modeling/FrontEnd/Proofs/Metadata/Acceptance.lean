import FrontEnd.Proofs.Check.Places
import Mathlib.Data.Finset.Insert

/-!
# Which sets of tags are accepted

The tags of a definition are tried in order, and then rules on their combination are tried in order,
each with the tag that it blames. What comes out depends on none of these orders: whether tags are
accepted depends on the **set** of what they say (`Metadata.labels`), and the accepted sets can be
listed (`Definition.Content.Admits`).

The list comes from two facts about the set. Each tag by itself is one of six (`Tag.lawful`), and no
two tags have the same name. The second one is what putting tags together keeps, and without it a
function could have two calling conventions.
-/

namespace FrontEnd

/-! ### What tags say -/

namespace Tag

/-- What a tag **says**: its name, and its text if it has one. -/
def label (t : Tag) : String × Option String :=
  (t.name, t.value?.map (·.text))

/-- The names of the calling conventions. -/
def conventions : List String :=
  ["c", "win64", "stdcall"]

/-- What a tag may say by itself. -/
def lawful : Finset (String × Option String) :=
  {("extern", none), ("abientry", none), ("inline", none)} ∪
    (conventions.map fun text ↦ ("callconv", some text)).toFinset

theorem mem_lawful {x : String × Option String} :
    x ∈ lawful ↔ (x = ("extern", none) ∨ x = ("abientry", none) ∨ x = ("inline", none)) ∨
      ∃ text ∈ conventions, x = ("callconv", some text) := by
  simp only [lawful, Finset.mem_union, Finset.mem_insert, Finset.mem_singleton, List.mem_toFinset,
    List.mem_map, eq_comm]

/-- **A tag breaks no rule by itself** exactly if what it says is lawful. -/
theorem error?_eq_none_iff (t : Tag) : t.error? = none ↔ t.label ∈ lawful := by
  obtain ⟨name, nameSpan, value?⟩ := t
  rw [mem_lawful]
  by_cases hflag : name = "extern" ∨ name = "abientry" ∨ name = "inline"
  · have htexts : texts? name = some [] := if_pos hflag
    have hname : name ≠ "callconv" := by
      rintro rfl
      revert hflag
      decide
    cases value? with
    | none => simpa [error?, htexts, label, hname] using hflag
    | some value => simp [error?, htexts, label, hname]
  · by_cases hname : name = "callconv"
    · subst hname
      have htexts : texts? "callconv" = some ["c", "win64", "stdcall"] := by decide
      cases value? with
      | none => simp [error?, htexts, label]
      | some value =>
        have herror : error? ⟨"callconv", nameSpan, some value⟩ = none ↔
            value.text ∈ conventions := by
          simp only [error?, htexts, conventions, ite_eq_left_iff, reduceCtorEq, imp_false, not_not]
        simp [herror, label]
    · have htexts : texts? name = none := by rw [texts?, if_neg hflag, if_neg hname]
      obtain ⟨hmarked, hentry, hinline⟩ :
          name ≠ "extern" ∧ name ≠ "abientry" ∧ name ≠ "inline" := by
        simpa [not_or] using hflag
      simp [error?, htexts, label, hname, hmarked, hentry, hinline]

end Tag

namespace Metadata

/-- What the tags of a definition say, in whatever order they stand. -/
def labels (m : Metadata) : Finset (String × Option String) :=
  (m.tags.map Tag.label).toFinset

variable {m : Metadata}

theorem mem_labels {x : String × Option String} : x ∈ m.labels ↔ ∃ t ∈ m.tags, t.label = x := by
  rw [labels, List.mem_toFinset, List.mem_map]

/-- **No name is said twice.** -/
theorem eq_of_mem_labels {x y : String × Option String} (hx : x ∈ m.labels) (hy : y ∈ m.labels)
    (h : x.1 = y.1) : x = y := by
  obtain ⟨s, hs, rfl⟩ := mem_labels.1 hx
  obtain ⟨t, ht, rfl⟩ := mem_labels.1 hy
  rw [List.inj_on_of_nodup_map m.distinct hs ht h]

theorem contains_eq_true_iff_mem_labels {name : String} :
    m.contains name = true ↔ ∃ text?, (name, text?) ∈ m.labels := by
  rw [contains_eq_true_iff, List.mem_map]
  constructor
  · rintro ⟨t, ht, rfl⟩
    exact ⟨_, mem_labels.2 ⟨t, ht, rfl⟩⟩
  · rintro ⟨text?, h⟩
    obtain ⟨t, ht, heq⟩ := mem_labels.1 h
    exact ⟨t, ht, congrArg Prod.fst heq⟩

theorem labels_subset_lawful_iff :
    m.labels ⊆ Tag.lawful ↔ m.tags.findSome? Tag.error? = none := by
  rw [List.findSome?_eq_none_iff]
  constructor
  · exact fun h t ht ↦ (Tag.error?_eq_none_iff t).2 (h (mem_labels.2 ⟨t, ht, rfl⟩))
  · rintro h x hx
    obtain ⟨t, ht, rfl⟩ := mem_labels.1 hx
    exact (Tag.error?_eq_none_iff t).1 (h t ht)

/-- Tags are accepted if each is lawful by itself and no rule on their combination is broken. -/
theorem error?_eq_none_iff {on : Tagged} :
    m.error? on = none ↔ m.labels ⊆ Tag.lawful ∧ ∀ r ∈ m.rules on, r.broken = false := by
  rw [error?, Option.or_eq_none_iff, ← labels_subset_lawful_iff, Option.map_eq_none_iff,
    List.find?_eq_none]
  simp only [Bool.not_eq_true]

section Lawful

variable (h : m.labels ⊆ Tag.lawful)

include h

/-- Among lawful tags, one that is no convention has no text. -/
theorem contains_flag {name : String} (hname : name ≠ "callconv") :
    m.contains name = true ↔ (name, none) ∈ m.labels := by
  rw [contains_eq_true_iff_mem_labels]
  refine ⟨fun ⟨text?, hmem⟩ ↦ ?_, fun hmem ↦ ⟨none, hmem⟩⟩
  rcases Tag.mem_lawful.1 (h hmem) with hflag | ⟨text, -, heq⟩
  · have hnone : text? = none := by
      rcases hflag with heq | heq | heq <;> exact congrArg Prod.snd heq
    exact hnone ▸ hmem
  · exact absurd (congrArg Prod.fst heq) hname

/-- Among lawful tags, a convention has a text. -/
theorem contains_convention :
    m.contains "callconv" = true ↔ ∃ text, ("callconv", some text) ∈ m.labels := by
  rw [contains_eq_true_iff_mem_labels]
  refine ⟨fun ⟨text?, hmem⟩ ↦ ?_, fun ⟨text, hmem⟩ ↦ ⟨some text, hmem⟩⟩
  rcases Tag.mem_lawful.1 (h hmem) with hflag | ⟨text, -, heq⟩
  · simp at hflag
  · exact ⟨text, heq ▸ hmem⟩

theorem rules_function_iff {hasBody : Bool} :
    (∀ r ∈ m.rules (.function hasBody), r.broken = false) ↔
      (("extern", none) ∈ m.labels →
        hasBody = false ∧ ("abientry", none) ∉ m.labels ∧ ("inline", none) ∉ m.labels) ∧
      (("extern", none) ∉ m.labels → ∀ text, ("callconv", some text) ∉ m.labels) := by
  rw [← contains_flag h (by decide), ← contains_flag h (by decide), ← contains_flag h (by decide),
    ← not_exists, ← contains_convention h]
  simp only [rules, List.forall_mem_cons]
  cases m.contains "extern" <;> simp

theorem rules_global_iff {hasInit : Bool} :
    (∀ r ∈ m.rules (.global hasInit), r.broken = false) ↔
      (∀ text, ("callconv", some text) ∉ m.labels) ∧ ("inline", none) ∉ m.labels ∧
      (("extern", none) ∈ m.labels → hasInit = false ∧ ("abientry", none) ∉ m.labels) := by
  rw [← contains_flag h (by decide), ← contains_flag h (by decide), ← contains_flag h (by decide),
    ← not_exists, ← contains_convention h]
  simp only [rules, List.forall_mem_cons]
  cases m.contains "extern" <;> simp

end Lawful

end Metadata

/-! ### The accepted sets -/

namespace Definition.Content

/-- **The sets of tags that a definition admits.** On a function: entry point and inlined, each or
not; or, if it has no body, external, with or without a calling convention. On a global variable:
nothing; entry point; or external, if it has no initial value. -/
def Admits : Content → Finset (String × Option String) → Prop
  | .function _ _ _ body?, labels =>
    labels ⊆ {("abientry", none), ("inline", none)} ∨
      body? = none ∧ (labels = {("extern", none)} ∨
        ∃ text ∈ Tag.conventions, labels = {("extern", none), ("callconv", some text)})
  | .global v, labels =>
    labels = ∅ ∨ labels = {("abientry", none)} ∨ v.init? = none ∧ labels = {("extern", none)}

instance (content : Content) (labels : Finset (String × Option String)) :
    Decidable (content.Admits labels) :=
  match content with
  | .function _ _ _ body? => inferInstanceAs (Decidable (_ ∨ body? = none ∧ (_ ∨ _)))
  | .global v => inferInstanceAs (Decidable (_ ∨ _ ∨ v.init? = none ∧ _))

/-- Two definitions introduce **things of one sort**: functions that both have a body or both have
none, or global variables that both have an initial value or both have none. -/
def SameSort : Content → Content → Prop
  | .function _ _ _ body?, .function _ _ _ body'? => body? = none ↔ body'? = none
  | .global v, .global v' => v.init? = none ↔ v'.init? = none
  | _, _ => False

/-- What is admitted on a definition is admitted on every other one of its sort. -/
theorem SameSort.admits_iff {x y : Content} (h : x.SameSort y)
    (labels : Finset (String × Option String)) : x.Admits labels ↔ y.Admits labels := by
  cases x with
  | function _ _ _ body? =>
    cases y with
    | function _ _ _ body'? =>
      have h : body? = none ↔ body'? = none := h
      simp only [Admits, h]
    | global v => exact h.elim
  | global v =>
    cases y with
    | function _ _ _ body? => exact h.elim
    | global v' =>
      have h : v.init? = none ↔ v'.init? = none := h
      simp only [Admits, h]

end Definition.Content

namespace Metadata

open Definition

variable {m : Metadata} {symbol : Nat} {params : List Nat} {result : Ty} {body? : Option Block}
  {v : Variable}

/-- What an accepted external function says beside `extern` is at most one convention. -/
theorem admits_of_external (hlawful : m.labels ⊆ Tag.lawful)
    (hmarked : ("extern", none) ∈ m.labels) (hbody : body? = none)
    (hentry : ("abientry", none) ∉ m.labels) (hinline : ("inline", none) ∉ m.labels) :
    (Content.function symbol params result body?).Admits m.labels := by
  have hcases : ∀ x ∈ m.labels,
      x = ("extern", none) ∨ ∃ text ∈ Tag.conventions, x = ("callconv", some text) := by
    intro x hx
    rcases Tag.mem_lawful.1 (hlawful hx) with (rfl | rfl | rfl) | hconvention
    · exact .inl rfl
    · exact absurd hx hentry
    · exact absurd hx hinline
    · exact .inr hconvention
  refine .inr ⟨hbody, ?_⟩
  by_cases hsome : ∃ text ∈ Tag.conventions, ("callconv", some text) ∈ m.labels
  · obtain ⟨text, htext, hmem⟩ := hsome
    refine .inr ⟨text, htext, Finset.Subset.antisymm (fun x hx ↦ ?_) ?_⟩
    · rcases hcases x hx with rfl | ⟨other, -, rfl⟩
      · exact Finset.mem_insert_self _ _
      -- a second convention would have the same name
      · rw [eq_of_mem_labels hx hmem rfl]
        exact Finset.mem_insert_of_mem (Finset.mem_singleton_self _)
    · exact Finset.insert_subset hmarked (Finset.singleton_subset_iff.2 hmem)
  · refine .inl (Finset.eq_singleton_iff_unique_mem.2 ⟨hmarked, fun x hx ↦ ?_⟩)
    rcases hcases x hx with rfl | ⟨text, htext, rfl⟩
    · rfl
    · exact absurd ⟨text, htext, hx⟩ hsome

theorem admits_function_of_error? (h : m.error? (.function body?.isSome) = none) :
    (Content.function symbol params result body?).Admits m.labels := by
  obtain ⟨hlawful, hrules⟩ := error?_eq_none_iff.1 h
  obtain ⟨hexternal, hinternal⟩ := (rules_function_iff hlawful).1 hrules
  by_cases hmarked : ("extern", none) ∈ m.labels
  · obtain ⟨hbody, hentry, hinline⟩ := hexternal hmarked
    have hbody := Option.isNone_iff_eq_none.1 (Option.isSome_eq_false_iff.1 hbody)
    exact admits_of_external hlawful hmarked hbody hentry hinline
  · refine .inl fun x hx ↦ ?_
    rcases Tag.mem_lawful.1 (hlawful hx) with (rfl | rfl | rfl) | ⟨text, -, rfl⟩
    · exact absurd hx hmarked
    · exact Finset.mem_insert_self _ _
    · exact Finset.mem_insert_of_mem (Finset.mem_singleton_self _)
    · exact absurd hx (hinternal hmarked text)

theorem error?_function_of_admits
    (h : (Content.function symbol params result body?).Admits m.labels) :
    m.error? (.function body?.isSome) = none := by
  have hlawful : m.labels ⊆ Tag.lawful := by
    rcases h with hsubset | ⟨-, heq | ⟨text, htext, heq⟩⟩
    · exact hsubset.trans (by decide)
    · exact heq ▸ by decide
    · rw [heq, Finset.insert_subset_iff, Finset.singleton_subset_iff]
      exact ⟨by decide, Tag.mem_lawful.2 (.inr ⟨text, htext, rfl⟩)⟩
  refine error?_eq_none_iff.2 ⟨hlawful, (rules_function_iff hlawful).2 ?_⟩
  rcases h with hsubset | ⟨rfl, heq | ⟨text, -, heq⟩⟩
  · exact ⟨fun hx ↦ absurd (hsubset hx) (by decide), fun _ text hx ↦ absurd (hsubset hx) (by simp)⟩
  · rw [heq]
    exact ⟨fun _ ↦ ⟨rfl, by decide, by decide⟩, fun hx ↦ absurd (Finset.mem_singleton_self _) hx⟩
  · rw [heq]
    exact ⟨fun _ ↦ ⟨rfl, by simp, by simp⟩, fun hx ↦ absurd (Finset.mem_insert_self _ _) hx⟩

theorem admits_global_of_error? (h : m.error? (.global v.init?.isSome) = none) :
    (Content.global v).Admits m.labels := by
  obtain ⟨hlawful, hrules⟩ := error?_eq_none_iff.1 h
  obtain ⟨hconvention, hinline, hexternal⟩ := (rules_global_iff hlawful).1 hrules
  have hcases : ∀ x ∈ m.labels, x = ("extern", none) ∨ x = ("abientry", none) := by
    intro x hx
    rcases Tag.mem_lawful.1 (hlawful hx) with (rfl | rfl | rfl) | ⟨text, -, rfl⟩
    · exact .inl rfl
    · exact .inr rfl
    · exact absurd hx hinline
    · exact absurd hx (hconvention text)
  by_cases hmarked : ("extern", none) ∈ m.labels
  · obtain ⟨hinit, hentry⟩ := hexternal hmarked
    have hinit := Option.isNone_iff_eq_none.1 (Option.isSome_eq_false_iff.1 hinit)
    refine .inr (.inr ⟨hinit, Finset.eq_singleton_iff_unique_mem.2 ⟨hmarked, fun x hx ↦ ?_⟩⟩)
    exact (hcases x hx).resolve_right fun heq ↦ hentry (heq ▸ hx)
  · have hsubset : m.labels ⊆ {("abientry", none)} := fun x hx ↦
      Finset.mem_singleton.2 ((hcases x hx).resolve_left fun heq ↦ hmarked (heq ▸ hx))
    exact (Finset.subset_singleton_iff.1 hsubset).imp_right .inl

theorem error?_global_of_admits (h : (Content.global v).Admits m.labels) :
    m.error? (.global v.init?.isSome) = none := by
  have hlawful : m.labels ⊆ Tag.lawful := by
    rcases h with heq | heq | ⟨-, heq⟩ <;> exact heq ▸ by decide
  refine error?_eq_none_iff.2 ⟨hlawful, (rules_global_iff hlawful).2 ?_⟩
  rcases h with heq | heq | ⟨hinit, heq⟩ <;> rw [heq]
  · simp
  · simp
  · rw [hinit]
    simp

/-- **Tags are accepted exactly if the set of what they say is on the list.** -/
theorem error?_eq_none_iff_admits {d : Definition} :
    m.error? d.tagged = none ↔ d.content.Admits m.labels := by
  rw [Definition.tagged]
  cases d.content with
  | function symbol params result body? =>
    exact ⟨admits_function_of_error?, error?_function_of_admits⟩
  | global v => exact ⟨admits_global_of_error?, error?_global_of_admits⟩

example : (Content.function 0 [] .i64 none).Admits {("callconv", some "win64"), ("extern", none)} ∧
    ¬(Content.function 0 [] .i64 (some ⟨default, []⟩)).Admits {("extern", none)} := by decide

/-- Tags of different names are all kept when they are put together, in their order. -/
theorem tags_addAll (ts : List Tag) (m : Metadata) (h : ((m.tags ++ ts).map (·.name)).Nodup) :
    (m.addAll ts).tags = m.tags ++ ts := by
  induction ts generalizing m with
  | nil => rw [List.append_nil]; rfl
  | cons t ts ih =>
    have hnew : t.name ∉ m.tags.map (·.name) := by
      rw [List.map_append, List.map_cons, List.nodup_append_comm, List.cons_append,
        List.nodup_cons, List.mem_append, not_or] at h
      exact h.1.2
    obtain ⟨m', hm', htags⟩ := insert?_of_not_mem hnew
    have hrest : m'.tags ++ ts = m.tags ++ t :: ts := by
      rw [htags, List.append_assoc, List.singleton_append]
    rw [addAll, List.foldl_cons, hm', Option.getD_some, ← addAll, ih m' (hrest ▸ h), hrest]

/-- **Every collection of tags is put together** from its tags in their order. -/
theorem addAll_tags (m : Metadata) : empty.addAll m.tags = m := by
  have htags : (empty.addAll m.tags).tags = m.tags := tags_addAll m.tags empty m.distinct
  obtain ⟨ts, hts⟩ := m
  generalize empty.addAll ts = m' at htags
  obtain ⟨ts', hts'⟩ := m'
  obtain rfl : ts' = ts := htags
  rfl

end Metadata

/-- **Whether tags are accepted depends on the set of tags only.** The tags of any definition are
what comes of putting them together one by one. They break no rule exactly if the set of what they
say is one of those that the definition admits; so tags that say the same are accepted together on
definitions of one sort, in whatever order they stand. And when a rule is broken, what is pointed at
is the name or the text of a tag that is there. -/
theorem Definition.tags_accepted_iff (d : Definition) :
    Metadata.empty.addAll d.metadata.tags = d.metadata ∧
      (d.metadata.error? d.tagged = none ↔ d.content.Admits d.metadata.labels) ∧
      (∀ x : Definition, x.content.SameSort d.content → x.metadata.labels = d.metadata.labels →
        (x.metadata.error? x.tagged = none ↔ d.metadata.error? d.tagged = none)) ∧
      ∀ error span, d.metadata.error? d.tagged = some (error, span) →
        ∃ t ∈ d.metadata.tags, t.StandsAt span := by
  refine ⟨d.metadata.addAll_tags, Metadata.error?_eq_none_iff_admits, fun x hsort hlabels ↦ ?_,
    fun error span ↦ Metadata.standsAt_of_error?⟩
  rw [Metadata.error?_eq_none_iff_admits, Metadata.error?_eq_none_iff_admits, hlabels]
  exact hsort.admits_iff _

end FrontEnd
