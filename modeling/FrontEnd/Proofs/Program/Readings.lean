import FrontEnd.Proofs.Program.Places

/-!
# What a file holds

Which definitions of a file can be read to their end is a matter of its text. The global names that
are taken by then have no say in it, nor have the definitions that were kept or the reports that
were made: these are written while a file is read, and never looked at by the parsers of a function
or a variable. Such a parser is **plain** (`Build.Plain`): it goes by the number of the file, the
place reached and the symbols so far, and it changes the last two only.

So a file can be read without a program to put it in. Its **reading** (`Build.readTo`) lists the
definitions that could be read to their end, each with its tags as they are written, and says what
ended it early. Nothing is bound, dropped or reported on the way, and drafts that differ in those
respects have the same reading (`Build.readTo_congr`).
-/

namespace FrontEnd

namespace Draft

/-- A draft at another place and with other symbols. -/
def moved (d : Draft) (c : Cursor) (symbols : List Symbol) : Draft :=
  { d with cursor := c, program := { d.program with symbols } }

/-- Two drafts are **alike** to a parser that binds nothing and reports nothing. -/
structure Alike (d d' : Draft) : Prop where
  file_eq : d'.file = d.file
  cursor_eq : d'.cursor = d.cursor
  symbols_eq : d'.program.symbols = d.program.symbols

theorem Alike.refl (d : Draft) : d.Alike d :=
  ⟨rfl, rfl, rfl⟩

theorem Alike.moved {d d' : Draft} (h : d.Alike d') :
    d'.moved d.cursor d.program.symbols = d' := by
  rw [← h.cursor_eq, ← h.symbols_eq]
  rfl

end Draft

namespace Build

open Parse

variable {α β : Type} {p : Build α} {d d' : Draft}

/-! ### Plain parsers -/

/-- **A parser is plain** if it does the same on drafts that are alike, and changes the place and
the symbols only. -/
def Plain (p : Build α) : Prop :=
  ∀ ⦃d d' : Draft⦄, d.Alike d' → p d' = ((p d).1, d'.moved (p d).2.cursor (p d).2.program.symbols)

theorem Plain.file_eq (hp : Plain p) (d : Draft) : (p d).2.file = d.file :=
  congrArg (·.2.file) (hp (.refl d))

theorem plain_pure (a : α) : Plain (pure a) :=
  fun _ _ h ↦ congrArg (fun d'' : Draft ↦ (Except.ok a, d'')) (Draft.Alike.moved h).symm

theorem plain_stop : Plain (stop : Build α) := by
  intro d d' h
  show (Except.error d'.cursor.unexpected, d') =
    (Except.error d.cursor.unexpected, d'.moved d.cursor d.program.symbols)
  rw [h.moved, h.cursor_eq]

theorem plain_lift (p : Parse α) : Plain (liftM p : Build α) := by
  intro d d' h
  rw [lift_apply, lift_apply, h.cursor_eq]
  rcases p d.cursor with e | ⟨a, c⟩
  · dsimp only
    rw [h.moved]
  · dsimp only
    rw [← h.symbols_eq]
    rfl

theorem Plain.bind {f : α → Build β} (hp : Plain p) (hf : ∀ a, Plain (f a)) : Plain (p >>= f) := by
  intro d d' h
  rw [bind_apply, bind_apply, hp h]
  have hfile := hp.file_eq d
  generalize p d = r at hfile ⊢
  rcases r with ⟨e | a, d₁⟩
  · rfl
  · exact hf a ⟨h.file_eq.trans hfile.symm, rfl, rfl⟩

theorem plain_ite {c : Prop} [Decidable c] {q : Build α} (hp : Plain p) (hq : Plain q) :
    Plain (if c then p else q) := by
  split
  · exact hp
  · exact hq

theorem plain_newSymbol (name : Token) (kind : SymbolKind) (type? : Option Ty) (isMutable : Bool) :
    Plain (newSymbol name kind type? isMutable) := by
  intro d d' h
  rw [newSymbol, newSymbol, Draft.addSymbol, Draft.addSymbol, h.symbols_eq, h.file_eq,
    ← h.cursor_eq]
  rfl

theorem plain_letVariable : Plain letVariable :=
  (plain_lift _).bind fun _ ↦ (plain_lift _).bind fun name ↦ (plain_lift _).bind fun type? ↦
    (plain_lift _).bind fun _ ↦ (plain_newSymbol name .value type? true).bind fun _ ↦
      (plain_lift _).bind fun _ ↦ plain_pure _

theorem plain_stmt : Plain stmt := by
  refine (plain_lift _).bind fun _ ↦ plain_ite ?_ ?_
  · exact plain_letVariable.bind fun _ ↦ (plain_lift _).bind fun _ ↦ plain_pure _
  · exact (plain_lift _).bind fun _ ↦ (plain_lift _).bind fun _ ↦ plain_pure _

theorem plain_stmtsTo (n : Nat) : Plain (stmtsTo n) := by
  induction n with
  | zero => exact plain_stop
  | succ n ih =>
    refine (plain_lift _).bind fun _ ↦ plain_ite (plain_pure _) ?_
    exact plain_stmt.bind fun _ ↦ ih.bind fun _ ↦ plain_pure _

theorem plain_block : Plain block :=
  (plain_lift _).bind fun _ ↦ (plain_lift _).bind fun n ↦ (plain_stmtsTo n).bind fun _ ↦
    (plain_lift _).bind fun _ ↦ plain_pure _

theorem plain_newParams (a : Ty) (names : List Token) : Plain (newParams a names) := by
  induction names with
  | nil => exact plain_pure _
  | cons name names ih =>
    exact (plain_newSymbol name .value (some a) true).bind fun _ ↦ ih.bind fun _ ↦ plain_pure _

theorem plain_paramsTo (n : Nat) : Plain (paramsTo n) := by
  induction n with
  | zero => exact plain_stop
  | succ n ih =>
    refine (plain_lift _).bind fun _ ↦ (plain_lift _).bind fun names ↦ ?_
    refine (plain_lift _).bind fun _ ↦ (plain_lift _).bind fun a ↦ ?_
    refine (plain_newParams a names).bind fun _ ↦ ?_
    exact (plain_lift _).bind fun _ ↦ plain_ite (ih.bind fun _ ↦ plain_pure _) (plain_pure _)

theorem plain_paramList : Plain paramList := by
  refine (plain_lift _).bind fun _ ↦ Plain.bind ?_ fun _ ↦ (plain_lift _).bind fun _ ↦ plain_pure _
  exact (plain_lift _).bind fun _ ↦
    plain_ite (plain_pure _) ((plain_lift _).bind fun n ↦ plain_paramsTo n)

theorem plain_resultLabel : Plain resultLabel :=
  (plain_lift _).bind fun _ ↦ (plain_lift _).bind fun _ ↦ plain_ite (plain_pure _) (plain_lift _)

theorem plain_bodyPart : Plain bodyPart :=
  (plain_lift _).bind fun _ ↦ (plain_lift _).bind fun _ ↦ plain_ite (plain_pure _)
    (plain_ite (plain_block.bind fun _ ↦ plain_pure _) plain_stop)

/-- The number of the file goes into the definition. -/
theorem plain_made (span : Span) (m : Metadata) (content : Definition.Content) :
    Plain fun d ↦ (.ok ({ file := d.file, span, metadata := m, content } : Definition), d) := by
  intro d d' h
  dsimp only
  rw [h.moved, h.file_eq]

theorem plain_function (m : Metadata) : Plain (function m) := by
  rw [function_eq]
  refine (plain_lift _).bind fun _ ↦ (plain_lift _).bind fun name ↦ ?_
  refine plain_paramList.bind fun _ ↦ plain_resultLabel.bind fun _ ↦ plain_bodyPart.bind fun _ ↦ ?_
  exact (plain_newSymbol name .function _ false).bind fun _ ↦ (plain_lift _).bind fun _ ↦
    plain_made _ _ _

theorem plain_global (m : Metadata) : Plain (global m) :=
  plain_letVariable.bind fun _ ↦ (plain_lift _).bind fun _ ↦ plain_made _ _ _

theorem plain_content (m : Metadata) : Plain (content m) := by
  refine (plain_lift _).bind fun t ↦ ?_
  split
  · exact plain_function m
  · exact plain_global m
  · exact plain_stop

end Build

/-! ### Readings -/

/-- A definition that could be read to its end. -/
structure Entry where
  /-- The tags that are written in front of it, also those that are repeated. -/
  tags : List Tag
  /-- The token that names it. -/
  name : Token
  /-- The definition. -/
  definition : Definition

/-- The name of an entry. -/
def Entry.word (e : Entry) : String :=
  e.name.word

/-- What a file holds. -/
structure Reading where
  /-- The definitions that could be read to their end, in order. -/
  entries : List Entry
  /-- The tags that were read of a definition which was cut short. -/
  loose : List Tag
  /-- What ended the file early. -/
  error? : Option ParseError
  /-- The symbols of the program when all that can be read has been. -/
  symbols : List Symbol

namespace Reading

/-- A reading with one more definition in front. -/
def cons (e : Entry) (r : Reading) : Reading :=
  { r with entries := e :: r.entries }

/-- How a reading ends. -/
def result (r : Reading) : Except ParseError Unit :=
  match r.error? with
  | none => .ok ()
  | some e => .error e

end Reading

namespace Build

/-- **What the rest of a file holds.** No name is bound and nothing is reported. -/
def readTo : Nat → Draft → Reading
  | 0, d => ⟨[], [], some d.cursor.unexpected, d.program.symbols⟩
  | n + 1, d =>
    if d.cursor.current.kind = .finish then ⟨[], [], none, d.program.symbols⟩
    else
      match Tag.read d.cursor with
      | (tags, .error e) => ⟨[], tags, some e, d.program.symbols⟩
      | (tags, .ok c) =>
        match content (Metadata.empty.addAll tags) { d with cursor := c } with
        | (.error e, d') => ⟨[], tags, some e, d'.program.symbols⟩
        | (.ok x, d') => (readTo n d').cons ⟨tags, c.next.current, x⟩

/-- **Drafts that are alike have the same reading.** -/
theorem readTo_congr (n : Nat) {d d' : Draft} (h : d.Alike d') : readTo n d' = readTo n d := by
  induction n generalizing d d' with
  | zero => rw [readTo, readTo, h.cursor_eq, h.symbols_eq]
  | succ n ih =>
    rw [readTo, readTo, h.cursor_eq, h.symbols_eq]
    split
    · rfl
    · rcases Tag.read d.cursor with ⟨tags, e | c⟩
      · rfl
      · have halike : Draft.Alike { d with cursor := c } { d' with cursor := c } :=
          ⟨h.file_eq, rfl, h.symbols_eq⟩
        have hfile := (plain_content (Metadata.empty.addAll tags)).file_eq { d with cursor := c }
        dsimp only
        rw [plain_content _ halike]
        generalize content (Metadata.empty.addAll tags) { d with cursor := c } = r at hfile ⊢
        rcases r with ⟨e | x, d₁⟩
        · rfl
        · exact congrArg (Reading.cons _) (ih ⟨h.file_eq.trans hfile.symm, rfl, rfl⟩)

end Build

/-! ### Symbols in a reading -/

/-- **What is known of a definition that was read** in a file of some number, when there were `base`
symbols before it. -/
structure Entry.Sound (file base : Nat) (symbols : List Symbol) (e : Entry) : Prop where
  file_eq : e.definition.file = file
  owned : ∀ i ∈ e.definition.owned, base ≤ i ∧ i < symbols.length
  named : ∃ s, symbols[e.definition.symbol]? = some s ∧ s.Names e.name
  unresolved : ∀ x ∈ e.definition.exprs, x.Unresolved

theorem Entry.Sound.mono {file base base' : Nat} {σ τ : List Symbol} {e : Entry}
    (h : e.Sound file base σ) (hbase : base' ≤ base) (hσ : σ <+: τ) : e.Sound file base' τ where
  file_eq := h.file_eq
  owned i hi := ⟨Nat.le_trans hbase (h.owned i hi).1,
    Nat.lt_of_lt_of_le (h.owned i hi).2 hσ.length_le⟩
  named := by
    obtain ⟨s, hs, hnames⟩ := h.named
    obtain ⟨υ, rfl⟩ := hσ
    exact ⟨s, by rw [List.getElem?_append_left (List.getElem?_eq_some_iff.1 hs).1, hs], hnames⟩
  unresolved := h.unresolved

/-- The definitions of a reading have symbols behind those that were there before, and each has
older ones than the next. -/
structure Reading.Sound (file : Nat) (before : List Symbol) (r : Reading) : Prop where
  symbols : before <+: r.symbols
  entries : ∀ e ∈ r.entries, e.Sound file before.length r.symbols
  pairwise : r.entries.Pairwise fun e f ↦ e.definition.symbol < f.definition.symbol

theorem Reading.Sound.none (file : Nat) {before symbols : List Symbol} (h : before <+: symbols)
    (loose : List Tag) (error? : Option ParseError) :
    Reading.Sound file before ⟨[], loose, error?, symbols⟩ :=
  ⟨h, fun _ he ↦ absurd he List.not_mem_nil, .nil⟩

namespace Build

variable {source : SourceFile} {file : Nat} {d : Draft}

theorem sound_content (m : Metadata) (tags : List Tag) (hd : d.Stands source file) :
    ∀ x, (content m d).1 = .ok x →
      Entry.Sound file d.program.symbols.length (content m d).2.program.symbols
        ⟨tags, d.cursor.next.current, x⟩ := by
  intro x hx
  have hread := (staysIn_content m hd).2
  rw [hx] at hread
  exact ⟨hread.file_eq, (runs_content m d).2 x hx, hread.name_eq, hread.unresolved⟩

theorem sound_readTo (n : Nat) (hd : d.Stands source file) :
    (readTo n d).Sound file d.program.symbols := by
  induction n generalizing d with
  | zero => exact .none file (List.prefix_refl _) _ _
  | succ n ih =>
    rw [readTo]
    split
    · exact .none file (List.prefix_refl _) _ _
    · obtain ⟨-, hbehind, -⟩ := Tag.readIn_read hd.placed
      generalize Tag.read d.cursor = read at hbehind ⊢
      rcases read with ⟨tags, e | c⟩
      · exact .none file (List.prefix_refl _) _ _
      · have hd₁ : Draft.Stands source file { d with cursor := c } :=
          ⟨hd.source_eq, hd.file_eq, (hbehind c rfl).1⟩
        have hreaches := (staysIn_content (Metadata.empty.addAll tags) hd₁).1
        have hx := sound_content (Metadata.empty.addAll tags) tags hd₁
        dsimp only
        generalize content (Metadata.empty.addAll tags) { d with cursor := c } = r at hreaches hx ⊢
        rcases r with ⟨e | x, d₂⟩
        · exact .none file hreaches.symbols _ _
        · have hentry := hx x rfl
          obtain ⟨hsymbols, hentries, hpairwise⟩ := ih hreaches.toStands
          refine ⟨hreaches.symbols.trans hsymbols, List.forall_mem_cons.2 ⟨?_, fun f hf ↦ ?_⟩,
            List.pairwise_cons.2 ⟨fun f hf ↦ ?_, hpairwise⟩⟩
          · exact hentry.mono (Nat.le_refl _) hsymbols
          · exact (hentries f hf).mono hreaches.symbols.length_le (List.prefix_refl _)
          · exact Nat.lt_of_lt_of_le (hentry.owned _ x.symbol_mem_owned).2
              ((hentries f hf).owned _ f.definition.symbol_mem_owned).1

end Build

end FrontEnd
