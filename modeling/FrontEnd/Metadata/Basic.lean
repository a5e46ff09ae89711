import FrontEnd.Source.Span

/-!
# Tags of definitions

A definition may carry **tags**, names with an optional text, that say how it is to be treated
outside the language. A definition has a tag at most once, and the order of its tags is kept for
reports but has no meaning.
-/

namespace FrontEnd

/-- The text of a tag, with the place where it stands. -/
structure TagValue where
  /-- The text. -/
  text : String
  /-- Where it stands. -/
  span : Span
deriving DecidableEq, Repr

/-- A tag. -/
structure Tag where
  /-- The name. -/
  name : String
  /-- Where the name stands. -/
  nameSpan : Span
  /-- The text, if there is one. -/
  value? : Option TagValue
deriving DecidableEq, Repr

/-- The tags of a definition, in the order of the source. -/
structure Metadata where
  /-- The tags. -/
  tags : List Tag
  /-- No two of them have the same name. -/
  distinct : (tags.map (·.name)).Nodup
deriving DecidableEq, Repr

namespace Metadata

/-- No tags. -/
def empty : Metadata :=
  ⟨[], List.nodup_nil⟩

instance : Inhabited Metadata :=
  ⟨empty⟩

/-- The tag of a name. -/
def get? (m : Metadata) (name : String) : Option Tag :=
  m.tags.find? (·.name = name)

/-- Whether there is a tag of a name. -/
def contains (m : Metadata) (name : String) : Bool :=
  (m.get? name).isSome

/-- Whether there are no tags. -/
def isEmpty (m : Metadata) : Bool :=
  m.tags.isEmpty

theorem not_mem_names {m : Metadata} {name : String} (h : m.contains name = false) :
    name ∉ m.tags.map (·.name) := by
  intro hmem
  obtain ⟨tag, htag, rfl⟩ := List.mem_map.1 hmem
  have : m.get? tag.name = none := by simpa [contains] using h
  simpa using List.find?_eq_none.1 this tag htag

/-- The tags with one more at the end; `none` if there is one of that name. -/
def insert? (m : Metadata) (tag : Tag) : Option Metadata :=
  if h : m.contains tag.name then none
  else
    some
      { tags := m.tags ++ [tag]
        distinct := by
          rw [List.map_append, List.map_singleton]
          refine List.nodup_append.2 ⟨m.distinct, by simp, ?_⟩
          intro a ha b hb hab
          obtain rfl := List.mem_singleton.1 hb
          exact not_mem_names (by simpa using h) (hab ▸ ha) }

end Metadata

end FrontEnd
