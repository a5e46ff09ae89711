import FrontEnd.Expr.Parser

/-!
# The grammar

The rules of the language, written down as a table (`Grammar.Rule.form`) in the usual notation: one
form behind another, one or the other, at most once, any number of times. What a form derives are
words over kinds of tokens (`Grammar.Derives`). The table says nothing about how a word is found,
and nothing about precedence, which is no matter of what can be written.

A parser does not see words but the tokens that are left, and leaves fewer. `Grammar.Spans` relates
the tokens that are left before and behind a word; one equivalence for each way to build a form is
all that is needed to take a form apart.
-/

namespace FrontEnd

namespace Grammar

/-- The names of the rules. -/
inductive Rule where
  | file
  | definition
  | metadata
  | tag
  | function
  | group
  | binding
  | block
  | label
  | expr
  | row
  | operand
  | call
  | atom
deriving DecidableEq, Repr

/-- What a rule may stand for. -/
inductive Form where
  /-- One token of one of several kinds. -/
  | oneOf (ks : List Token.Kind)
  /-- What a rule stands for. -/
  | rule (r : Rule)
  /-- One form behind another. -/
  | seq (f g : Form)
  /-- One form or another. -/
  | alt (f g : Form)
  /-- A form, or nothing. -/
  | opt (f : Form)
  /-- A form any number of times. -/
  | many (f : Form)
deriving DecidableEq, Repr

namespace Form

instance : Append Form :=
  ⟨seq⟩

instance : OrOp Form :=
  ⟨alt⟩

/-- A token of one kind. -/
def kind (k : Token.Kind) : Form :=
  oneOf [k]

/-- A sign. -/
def sign (s : Sign) : Form :=
  kind (.sign s)

/-- A keyword. -/
def keyword (k : Keyword) : Form :=
  kind (.keyword k)

/-- A form at least once, with commas between. -/
def commas (f : Form) : Form :=
  f ++ many (sign .comma ++ f)

/-- Arguments behind a callee. -/
def arguments : Form :=
  sign .leftParen ++ opt (commas (rule .expr)) ++ sign .rightParen

end Form

/-- The kinds of token that name a scalar type. -/
def scalars : List Token.Kind :=
  Scalar.all.map .scalar

/-- The operators between two operands. -/
def binaryOperators : List Token.Kind :=
  [.sign .plus, .sign .minus, .sign .star, .sign .slash, .sign .percent, .sign .amp, .sign .pipe,
   .sign .caret]

/-- The operators in front of an operand. -/
def unaryOperators : List Token.Kind :=
  [.sign .amp, .sign .star, .sign .minus]

/-- The kinds of token that are an expression on their own. -/
def atoms : List Token.Kind :=
  [.ident, .int, .float, .rune, .keyword .true, .keyword .false, .keyword .null]

open Form in
/-- **The rules.** -/
def Rule.form : Rule → Form
  | file => many (rule definition)
  | definition =>
    opt (rule metadata) ++ (rule function ||| rule binding ++ sign .semicolon)
  | metadata =>
    sign .at ++ rule tag |||
    sign .at ++ sign .leftBracket ++ commas (rule tag) ++ sign .rightBracket
  | tag => kind .ident ++ opt (sign .leftParen ++ kind .string ++ sign .rightParen)
  | function =>
    keyword .func ++ kind .ident ++ sign .leftParen ++ opt (commas (rule group)) ++
    sign .rightParen ++ opt (rule label) ++ (rule block ||| sign .semicolon)
  | group => commas (kind .ident) ++ sign .colon ++ rule label
  | binding =>
    keyword .let ++ kind .ident ++
    (sign .colon ++ rule label ++ opt (sign .equal ++ rule expr) ||| sign .equal ++ rule expr)
  | block =>
    sign .leftBrace ++ many ((rule binding ||| rule expr) ++ sign .semicolon) ++ sign .rightBrace
  | label => oneOf scalars ||| sign .star ++ opt (keyword .const) ++ rule label
  | expr => rule row ++ many (keyword .as ++ rule label)
  | row => rule operand ++ many (oneOf binaryOperators ++ rule operand)
  | operand => oneOf unaryOperators ++ rule operand ||| rule call
  | call => rule atom ++ many arguments
  | atom => oneOf atoms ||| sign .leftParen ++ rule expr ++ sign .rightParen

/-- **The words that a form derives.** -/
inductive Derives : Form → List Token.Kind → Prop
  | oneOf {ks : List Token.Kind} {k : Token.Kind} : k ∈ ks → Derives (.oneOf ks) [k]
  | rule {r : Rule} {w : List Token.Kind} : Derives r.form w → Derives (.rule r) w
  | seq {f g : Form} {u v : List Token.Kind} : Derives f u → Derives g v → Derives (f ++ g) (u ++ v)
  | left {f g : Form} {w : List Token.Kind} : Derives f w → Derives (f ||| g) w
  | right {f g : Form} {w : List Token.Kind} : Derives g w → Derives (f ||| g) w
  | none {f : Form} : Derives (.opt f) []
  | some {f : Form} {w : List Token.Kind} : Derives f w → Derives (.opt f) w
  | nil {f : Form} : Derives (.many f) []
  | cons {f : Form} {u v : List Token.Kind} :
    Derives f u → Derives (.many f) v → Derives (.many f) (u ++ v)

namespace Form

/-- Whether a form names a kind with a property itself. -/
def names (p : Token.Kind → Bool) : Form → Bool
  | oneOf ks => ks.any p
  | rule _ => false
  | seq f g => f.names p || g.names p
  | alt f g => f.names p || g.names p
  | opt f => f.names p
  | many f => f.names p

/-- Whether a form can name the end mark itself. -/
def namesFinish (f : Form) : Bool :=
  f.names (· == .finish)

end Form

/-- What no rule names, **no word holds**. -/
theorem Derives.forall_mem {p : Token.Kind → Bool} (hrules : ∀ r : Rule, r.form.names p = false)
    {f : Form} {w : List Token.Kind} (h : Derives f w) (hf : f.names p = false) :
    ∀ k ∈ w, p k = false := by
  induction h with
  | oneOf hk =>
    exact List.forall_mem_singleton.2 (Bool.eq_false_iff.2 (List.any_eq_false.1 hf _ hk))
  | @rule r w _ ih => exact ih (hrules r)
  | seq _ _ ihf ihg =>
    obtain ⟨hf, hg⟩ := Bool.or_eq_false_iff.1 hf
    exact List.forall_mem_append.2 ⟨ihf hf, ihg hg⟩
  | left _ ih => exact ih (Bool.or_eq_false_iff.1 hf).1
  | right _ ih => exact ih (Bool.or_eq_false_iff.1 hf).2
  | none => exact List.forall_mem_nil _
  | some _ ih => exact ih hf
  | nil => exact List.forall_mem_nil _
  | cons _ _ ihf ihmore => exact List.forall_mem_append.2 ⟨ihf hf, ihmore hf⟩

/-- No rule names the end mark, so **no word holds it**. -/
theorem Derives.finish_not_mem {f : Form} {w : List Token.Kind} (h : Derives f w)
    (hf : f.namesFinish = false) : .finish ∉ w := by
  intro hmem
  have hrules : ∀ r : Rule, r.form.names (· == .finish) = false := by
    intro r
    cases r <;> decide
  exact absurd (h.forall_mem hrules hf _ hmem) (by decide)

end Grammar

/-! ### Tokens -/

/-- A token **has a value** if, being a literal, it stands for one. -/
def Token.HasValue (t : Token) : Prop :=
  ∀ r, Expr.constantOf? t = some r → ∃ v, r = .ok v

/-- Only numbers and runes can fail to have a value. -/
theorem Token.hasValue_of_kind {t : Token} {k : Token.Kind} (h : t.kind = k)
    (hk : k ∉ [Token.Kind.int, .float, .rune]) : t.HasValue := by
  intro r hr
  rw [Expr.constantOf?, h] at hr
  split at hr
  · exact absurd (by decide) hk
  · exact absurd (by decide) hk
  · exact absurd (by decide) hk
  · exact ⟨_, (Option.some.inj hr).symm⟩
  · exact ⟨_, (Option.some.inj hr).symm⟩
  · exact ⟨_, (Option.some.inj hr).symm⟩
  · exact nomatch hr

namespace Grammar

/-- The tokens `l` begin with **a word of a form**, in which all literals have values, and `l'` are
the tokens behind it. -/
def Spans (f : Form) (l l' : List Token) : Prop :=
  ∃ ts, l = ts ++ l' ∧ Derives f (ts.map (·.kind)) ∧ ∀ t ∈ ts, t.HasValue

section Spans

variable {f g h : Form} {r : Rule} {k : Token.Kind} {ks : List Token.Kind} {l l' l'' : List Token}

theorem spans_oneOf :
    Spans (.oneOf ks) l l' ↔ ∃ t, l = t :: l' ∧ t.kind ∈ ks ∧ t.HasValue := by
  constructor
  · rintro ⟨ts, rfl, hw, hts⟩
    generalize hmap : ts.map (·.kind) = w at hw
    cases hw with
    | oneOf hk =>
      obtain ⟨t, rfl, rfl⟩ := List.map_eq_singleton_iff.1 hmap
      exact ⟨t, rfl, hk, hts t (List.mem_singleton_self t)⟩
  · rintro ⟨t, rfl, hk, ht⟩
    exact ⟨[t], rfl, .oneOf hk, List.forall_mem_singleton.2 ht⟩

theorem spans_kind :
    Spans (.kind k) l l' ↔ ∃ t, l = t :: l' ∧ t.kind = k ∧ t.HasValue := by
  simp only [Form.kind, spans_oneOf, List.mem_singleton]

theorem spans_rule : Spans (.rule r) l l' ↔ Spans r.form l l' := by
  refine exists_congr fun ts ↦ and_congr_right fun _ ↦ and_congr_left fun _ ↦ ⟨fun h ↦ ?_, .rule⟩
  cases h with
  | rule h => exact h

theorem spans_seq : Spans (f ++ g) l l'' ↔ ∃ l', Spans f l l' ∧ Spans g l' l'' := by
  constructor
  · rintro ⟨ts, rfl, hw, hts⟩
    generalize hmap : ts.map (·.kind) = w at hw
    cases hw with
    | seq hu hv =>
      obtain ⟨us, vs, rfl, rfl, rfl⟩ := List.map_eq_append_iff.1 hmap
      obtain ⟨hus, hvs⟩ := List.forall_mem_append.1 hts
      exact ⟨vs ++ l'', ⟨us, List.append_assoc _ _ _, hu, hus⟩, ⟨vs, rfl, hv, hvs⟩⟩
  · rintro ⟨_, ⟨us, rfl, hu, hus⟩, ⟨vs, rfl, hv, hvs⟩⟩
    exact ⟨us ++ vs, (List.append_assoc _ _ _).symm, List.map_append ▸ .seq hu hv,
      List.forall_mem_append.2 ⟨hus, hvs⟩⟩

theorem spans_alt : Spans (f ||| g) l l' ↔ Spans f l l' ∨ Spans g l l' := by
  constructor
  · rintro ⟨ts, hl, hw, hts⟩
    cases hw with
    | left hw => exact .inl ⟨ts, hl, hw, hts⟩
    | right hw => exact .inr ⟨ts, hl, hw, hts⟩
  · rintro (⟨ts, hl, hw, hts⟩ | ⟨ts, hl, hw, hts⟩)
    · exact ⟨ts, hl, .left hw, hts⟩
    · exact ⟨ts, hl, .right hw, hts⟩

theorem spans_opt : Spans (.opt f) l l' ↔ l = l' ∨ Spans f l l' := by
  constructor
  · rintro ⟨ts, rfl, hw, hts⟩
    generalize hmap : ts.map (·.kind) = w at hw
    cases hw with
    | none =>
      obtain rfl := List.map_eq_nil_iff.1 hmap
      exact .inl rfl
    | some hw => exact .inr ⟨ts, rfl, hmap ▸ hw, hts⟩
  · rintro (rfl | ⟨ts, hl, hw, hts⟩)
    · exact ⟨[], rfl, .none, nofun⟩
    · exact ⟨ts, hl, .some hw, hts⟩

theorem spans_many :
    Spans (.many f) l l'' ↔ l = l'' ∨ ∃ l', Spans f l l' ∧ Spans (.many f) l' l'' := by
  constructor
  · rintro ⟨ts, rfl, hw, hts⟩
    generalize hmap : ts.map (·.kind) = w at hw
    cases hw with
    | nil =>
      obtain rfl := List.map_eq_nil_iff.1 hmap
      exact .inl rfl
    | cons hu hv =>
      obtain ⟨us, vs, rfl, rfl, rfl⟩ := List.map_eq_append_iff.1 hmap
      obtain ⟨hus, hvs⟩ := List.forall_mem_append.1 hts
      exact .inr ⟨vs ++ l'', ⟨us, List.append_assoc _ _ _, hu, hus⟩, ⟨vs, rfl, hv, hvs⟩⟩
  · rintro (rfl | ⟨_, ⟨us, rfl, hu, hus⟩, ⟨vs, rfl, hv, hvs⟩⟩)
    · exact ⟨[], rfl, .nil, nofun⟩
    · exact ⟨us ++ vs, (List.append_assoc _ _ _).symm, List.map_append ▸ .cons hu hv,
        List.forall_mem_append.2 ⟨hus, hvs⟩⟩

/-! ### Putting words together -/

theorem Spans.rule (h : Spans r.form l l') : Spans (.rule r) l l' :=
  spans_rule.2 h

theorem Spans.append (hf : Spans f l l') (hg : Spans g l' l'') : Spans (f ++ g) l l'' :=
  spans_seq.2 ⟨l', hf, hg⟩

theorem Spans.left (hf : Spans f l l') : Spans (f ||| g) l l' :=
  spans_alt.2 (.inl hf)

theorem Spans.right (hg : Spans g l l') : Spans (f ||| g) l l' :=
  spans_alt.2 (.inr hg)

theorem Spans.none (f : Form) (l : List Token) : Spans (.opt f) l l :=
  spans_opt.2 (.inl rfl)

theorem Spans.some (hf : Spans f l l') : Spans (.opt f) l l' :=
  spans_opt.2 (.inr hf)

theorem Spans.nil (f : Form) (l : List Token) : Spans (.many f) l l :=
  spans_many.2 (.inl rfl)

theorem Spans.cons (hf : Spans f l l') (hmore : Spans (.many f) l' l'') : Spans (.many f) l l'' :=
  spans_many.2 (.inr ⟨l', hf, hmore⟩)

/-- A token of one of some kinds that cannot fail to have a value. -/
theorem Spans.oneOf {t : Token} (hk : t.kind ∈ ks)
    (hks : ∀ k ∈ ks, k ∉ [Token.Kind.int, .float, .rune]) (l : List Token) :
    Spans (.oneOf ks) (t :: l) l :=
  spans_oneOf.2 ⟨t, rfl, hk, Token.hasValue_of_kind rfl (hks _ hk)⟩

theorem Spans.token {t : Token} (hk : t.kind = k) (hvalue : k ∉ [Token.Kind.int, .float, .rune])
    (l : List Token) : Spans (.kind k) (t :: l) l :=
  .oneOf (List.mem_singleton.2 hk) (List.forall_mem_singleton.2 hvalue) l

theorem spans_append_assoc : Spans (f ++ g ++ h) l l' ↔ Spans (f ++ (g ++ h)) l l' := by
  simp only [spans_seq]
  constructor
  · rintro ⟨m, ⟨n, hf, hg⟩, hh⟩
    exact ⟨n, hf, m, hg, hh⟩
  · rintro ⟨n, hf, m, hg, hh⟩
    exact ⟨m, ⟨n, hf, hg⟩, hh⟩

theorem spans_commas : Spans (.commas f) l l' ↔
    Spans f l l' ∨ ∃ t m, Spans f l (t :: m) ∧ t.kind = .sign .comma ∧ Spans (.commas f) m l' := by
  constructor
  · intro h
    obtain ⟨m, hf, hmore⟩ := spans_seq.1 h
    rcases spans_many.1 hmore with rfl | ⟨n, hfirst, hrest⟩
    · exact .inl hf
    · obtain ⟨n', hcomma, hnext⟩ := spans_seq.1 hfirst
      obtain ⟨t, rfl, ht, -⟩ := spans_kind.1 hcomma
      exact .inr ⟨t, n', hf, ht, hnext.append hrest⟩
  · rintro (hf | ⟨t, m, hf, ht, hmore⟩)
    · exact hf.append (.nil _ _)
    · obtain ⟨n, hnext, hmore⟩ := spans_seq.1 hmore
      exact hf.append (.cons ((Spans.token ht (by decide) m).append hnext) hmore)

theorem Spans.length_le (hf : Spans f l l') : l'.length ≤ l.length := by
  obtain ⟨ts, rfl, -⟩ := hf
  rw [List.length_append]
  exact Nat.le_add_left _ _

/-! ### The first token of a word -/

/-- The kind of the first token, the end mark if there is none. -/
def firstKind (l : List Token) : Token.Kind :=
  (l.head?.map (·.kind)).getD .finish

/-- Whether all words of a form begin with one of some kinds, as far as a number of steps into the
form can tell. -/
def Form.begins (ks : List Token.Kind) : Nat → Form → Bool
  | 0, _ => false
  | _ + 1, oneOf js => js.all ks.contains
  | n + 1, rule r => begins ks n r.form
  | n + 1, seq (opt f) g => begins ks n f && begins ks n g
  | n + 1, seq f _ => begins ks n f
  | n + 1, alt f g => begins ks n f && begins ks n g
  | _ + 1, opt _ => false
  | _ + 1, many _ => false

theorem Spans.firstKind_mem (ks : List Token.Kind) (n : Nat) (hf : Spans f l l')
    (hbegins : f.begins ks n = true) : firstKind l ∈ ks := by
  induction n generalizing f l' with
  | zero => exact nomatch hbegins
  | succ n ih =>
    cases f with
    | oneOf js =>
      obtain ⟨t, rfl, ht, -⟩ := spans_oneOf.1 hf
      exact List.contains_iff_mem.1 (List.all_eq_true.1 hbegins _ ht)
    | rule r => exact ih (spans_rule.1 hf) hbegins
    | seq f g =>
      obtain ⟨m, hf, hg⟩ := spans_seq.1 hf
      cases f with
      | opt f =>
        obtain ⟨hbegins, hbegins'⟩ := Bool.and_eq_true_iff.1 hbegins
        rcases spans_opt.1 hf with rfl | hf
        · exact ih hg hbegins'
        · exact ih hf hbegins
      | _ => exact ih hf hbegins
    | alt f g =>
      obtain ⟨hbegins, hbegins'⟩ := Bool.and_eq_true_iff.1 hbegins
      exact (spans_alt.1 hf).elim (fun hf ↦ ih hf hbegins) fun hf ↦ ih hf hbegins'
    | opt f => exact nomatch hbegins
    | many f => exact nomatch hbegins

/-- What comes first where a form may stand any number of times: the form, or what is behind. -/
theorem Spans.firstKind_many (ks : List Token.Kind) (n : Nat) (hf : Spans (.many f) l l')
    (hbegins : f.begins ks n = true) : l = l' ∨ firstKind l ∈ ks := by
  rcases spans_many.1 hf with rfl | ⟨m, hf, -⟩
  · exact .inl rfl
  · exact .inr (hf.firstKind_mem ks n hbegins)

/-- Whether all words of a form have a token, as far as a number of steps into the form can tell. -/
def Form.consumes : Nat → Form → Bool
  | 0, _ => false
  | _ + 1, oneOf _ => true
  | n + 1, rule r => consumes n r.form
  | n + 1, seq f g => consumes n f || consumes n g
  | n + 1, alt f g => consumes n f && consumes n g
  | _ + 1, opt _ => false
  | _ + 1, many _ => false

theorem Spans.length_lt (n : Nat) (hf : Spans f l l') (hconsumes : f.consumes n = true) :
    l'.length < l.length := by
  induction n generalizing f l l' with
  | zero => exact nomatch hconsumes
  | succ n ih =>
    cases f with
    | oneOf js =>
      obtain ⟨t, rfl, -⟩ := spans_oneOf.1 hf
      exact Nat.lt_succ_self _
    | rule r => exact ih (spans_rule.1 hf) hconsumes
    | seq f g =>
      obtain ⟨m, hf, hg⟩ := spans_seq.1 hf
      rcases Bool.or_eq_true_iff.1 hconsumes with h | h
      · exact Nat.lt_of_le_of_lt hg.length_le (ih hf h)
      · exact Nat.lt_of_lt_of_le (ih hg h) hf.length_le
    | alt f g =>
      obtain ⟨hconsumes, hconsumes'⟩ := Bool.and_eq_true_iff.1 hconsumes
      exact (spans_alt.1 hf).elim (fun hf ↦ ih hf hconsumes) fun hf ↦ ih hf hconsumes'
    | opt f => exact nomatch hconsumes
    | many f => exact nomatch hconsumes

theorem firstKind_label (h : Spans (.rule .label) l l') : firstKind l ∈ .sign .star :: scalars :=
  h.firstKind_mem _ 5 (by decide)

theorem firstKind_expr (h : Spans (.rule .expr) l l') :
    firstKind l ∈ .sign .leftParen :: (unaryOperators ++ atoms) :=
  h.firstKind_mem _ 14 (by decide)

end Spans

end Grammar

end FrontEnd
