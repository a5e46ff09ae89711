import FrontEnd.Proofs.Expr.Transfer
import FrontEnd.Proofs.Program.Tags

/-!
# Programs in other places

A **relocation** gives every file another number and every span of a file another place. It changes
nothing else of a program: symbols keep their numbers, names and types, and trees keep their shape
and their types.
-/

namespace FrontEnd

/-! ### Spans -/

variable (f : Span → Span)

def TagValue.mapSpan (v : TagValue) : TagValue :=
  { v with span := f v.span }

/-- The tag with `f` applied to the spans of its name and its text. -/
def Tag.mapSpans (t : Tag) : Tag :=
  { t with nameSpan := f t.nameSpan, value? := t.value?.map (TagValue.mapSpan f) }

namespace Metadata

/-- The tags with `f` applied to every span. -/
def mapSpans (m : Metadata) : Metadata where
  tags := m.tags.map (Tag.mapSpans f)
  distinct := by
    rw [List.map_map]
    exact m.distinct

theorem ext {m m' : Metadata} (h : m.tags = m'.tags) : m = m' := by
  obtain ⟨tags, distinct⟩ := m
  subst h
  rfl

theorem get?_mapSpans (m : Metadata) (name : String) :
    (m.mapSpans f).get? name = (m.get? name).map (Tag.mapSpans f) := by
  rw [get?, get?, mapSpans, List.find?_map]
  rfl

@[simp]
theorem contains_mapSpans (m : Metadata) (name : String) :
    (m.mapSpans f).contains name = m.contains name := by
  rw [contains, contains, get?_mapSpans, Option.isSome_map]

theorem insert?_mapSpans (m : Metadata) (t : Tag) :
    (m.mapSpans f).insert? (t.mapSpans f) = (m.insert? t).map (mapSpans f) := by
  have hnames : (m.mapSpans f).tags.map (·.name) = m.tags.map (·.name) := List.map_map
  by_cases hmem : t.name ∈ m.tags.map (·.name)
  · rw [insert?_of_mem hmem, insert?_of_mem (by rwa [hnames])]
    rfl
  · obtain ⟨m₁, hm₁, htags₁⟩ := insert?_of_not_mem hmem
    obtain ⟨m₂, hm₂, htags₂⟩ := insert?_of_not_mem (m := m.mapSpans f) (t := t.mapSpans f)
      (by rwa [hnames])
    rw [hm₁, hm₂]
    refine congrArg some (ext ?_)
    show m₂.tags = m₁.tags.map (Tag.mapSpans f)
    rw [htags₂, htags₁, List.map_append]
    rfl

end Metadata

/-- The variable with `f` applied to every span. -/
def Variable.mapSpans (v : Variable) : Variable :=
  { v with span := f v.span, init? := v.init?.map (Expr.mapSpans f) }

/-- The statement with `f` applied to every span. -/
def Stmt.mapSpans : Stmt → Stmt
  | letVar v => letVar (v.mapSpans f)
  | expr e => expr (e.mapSpans f)

/-- The block with `f` applied to every span. -/
def Block.mapSpans (b : Block) : Block where
  span := f b.span
  stmts := b.stmts.map (Stmt.mapSpans f)

/-- What a definition introduces, with `f` applied to every span. -/
def Definition.Content.mapSpans : Definition.Content → Definition.Content
  | function symbol params result body? =>
    function symbol params result (body?.map (Block.mapSpans f))
  | global v => global (v.mapSpans f)

/-! ### Relocations -/

/-- Another number for each file, and another place for each span of a file. -/
structure Relocation where
  /-- The number of a file. -/
  file : Nat → Nat
  /-- The place of a span that is in a file. -/
  span : Nat → Span → Span

namespace Relocation

variable (ρ : Relocation)

/-- A symbol in its other place. -/
def symbol (s : Symbol) : Symbol :=
  { s with file := ρ.file s.file, span := ρ.span s.file s.span }

/-- A definition in its other place. -/
def definition (x : Definition) : Definition where
  file := ρ.file x.file
  span := ρ.span x.file x.span
  metadata := x.metadata.mapSpans (ρ.span x.file)
  content := x.content.mapSpans (ρ.span x.file)

@[simp]
theorem symbol_definition (x : Definition) : (ρ.definition x).symbol = x.symbol := by
  rw [Definition.symbol, Definition.symbol, definition]
  cases x.content <;> rfl

/-- A relocation **leads** from one program to another if that has the same symbols, definitions and
global names, in their other places. -/
structure Leads (p q : Program) : Prop where
  symbols : q.symbols = p.symbols.map ρ.symbol
  definitions : q.definitions = p.definitions.map ρ.definition
  globals : q.globals = p.globals

end Relocation

end FrontEnd
