import FrontEnd.Proofs.Grammar.Acceptance
import FrontEnd.Proofs.Token.Spelling

/-!
# The files that can be read

Soundness and completeness of the parser meet the stream that a text is scanned into. The stream
ends with the only end mark it has, so the words that the parser stops behind are exactly the whole
stream before that mark, and its tokens are spelled so that a literal can only fail by its size.
Put together, `Program.parseFile_ok_iff_derives` tells for every text whether it can be read.
-/

namespace FrontEnd

open Grammar Literal

namespace Token

/-- The tokens of a text before its end mark. -/
theorem exists_scan_eq (text : String) :
    ∃ ts stop, scan text = ts ++ [finishAt stop] ∧ ∀ t ∈ ts, t.kind ≠ .finish := by
  obtain ⟨ts, stop, hscan, hspells⟩ := scanFrom_eq_append 0 text.toList
  exact ⟨ts, stop, hscan, fun t ht ↦ kind_ne_finish (hspells t ht)⟩

/-- The kinds before the end mark. -/
def kindsBeforeFinish (ts : List Token) : List Kind :=
  (ts.map (·.kind)).takeWhile (· ≠ .finish)

theorem kindsBeforeFinish_append {ts : List Token} (h : ∀ t ∈ ts, t.kind ≠ .finish) (stop : Nat) :
    kindsBeforeFinish (ts ++ [finishAt stop]) = ts.map (·.kind) := by
  rw [kindsBeforeFinish, List.map_append]
  refine (takeWhile_dropWhile_append (fun k hk ↦ ?_) fun k hk ↦ ?_).1
  · obtain ⟨t, ht, rfl⟩ := List.mem_map.1 hk
    exact decide_eq_true (h t ht)
  · obtain rfl := Option.mem_some.1 hk
    rfl

end Token

namespace Grammar

theorem spans_append_iff {f : Form} {ts l' : List Token} :
    Spans f (ts ++ l') l' ↔ Derives f (ts.map (·.kind)) ∧ ∀ t ∈ ts, t.HasValue := by
  constructor
  · rintro ⟨us, heq, h⟩
    rwa [List.append_cancel_right heq]
  · exact fun h ↦ ⟨ts, rfl, h⟩

/-- A word that reaches up to an end mark reaches up to the first one. -/
theorem Spans.eq_of_firstKind {f : Form} (hf : f.namesFinish = false) {ts l' : List Token}
    {stop : Nat} (hts : ∀ t ∈ ts, t.kind ≠ .finish)
    (h : Spans f (ts ++ [Token.finishAt stop]) l') (hfirst : firstKind l' = .finish) :
    l' = [Token.finishAt stop] := by
  obtain ⟨us, heq, hderives, -⟩ := h
  have hus : ∀ t ∈ us, t.kind ≠ .finish := fun t ht hk ↦
    hderives.finish_not_mem hf (List.mem_map.2 ⟨t, ht, hk⟩)
  rcases List.append_eq_append_iff.1 heq with ⟨vs, rfl, hvs⟩ | ⟨vs, rfl, rfl⟩
  · cases vs with
    | nil => exact hvs.symm
    | cons v vs =>
      obtain ⟨rfl, -⟩ := List.cons_eq_cons.1 hvs
      exact absurd rfl (hus _ (List.mem_append_right ts List.mem_cons_self))
  · cases vs with
    | nil => rfl
    | cons v vs => exact absurd hfirst (hts v (List.mem_append_right us List.mem_cons_self))

end Grammar

namespace Program

theorem parseFile_ok_iff (p : Program) (source : SourceFile) :
    (p.parseFile source).error? = none ↔
      ∃ a, (Build.definitionsTo (Token.scan source.text).length (p.draft source)).1 = .ok a := by
  rw [parseFile]
  dsimp only
  split
  · rename_i hok
    exact iff_of_true rfl ⟨_, hok⟩
  · rename_i herror
    refine iff_of_false (Option.some_ne_none _) ?_
    rintro ⟨a, hok⟩
    cases herror.symm.trans hok

/-- A file can be read exactly if what stands before the end mark is a word. -/
theorem parseFile_ok_iff_spans (p : Program) {source : SourceFile} {ts : List Token}
    {stop : Nat} (hscan : Token.scan source.text = ts ++ [Token.finishAt stop])
    (hts : ∀ t ∈ ts, t.kind ≠ .finish) :
    (p.parseFile source).error? = none ↔
      Spans (.rule .file) (ts ++ [Token.finishAt stop]) [Token.finishAt stop] := by
  have hrest : (p.draft source).cursor.rest = ts ++ [Token.finishAt stop] := hscan
  rw [parseFile_ok_iff, spans_rule]
  constructor
  · rintro ⟨a, ha⟩
    obtain ⟨hspans, hfirst⟩ := Build.ensures_definitionsTo _ (p.draft source) a ha
    rw [hrest] at hspans
    rwa [hspans.eq_of_firstKind rfl hts hfirst] at hspans
  · intro h
    obtain ⟨a, ha, -⟩ := Build.reads_definitionsTo h rfl (Nat.lt_succ_self _) _ hrest
    exact ⟨a, hscan ▸ ha⟩

/-- **A file can be read exactly if its tokens are a word of the grammar and its numbers are not too
large**: integers are less than `2 ^ 64`, and floats round to finite doubles.

Neither the program that the file is read into nor the spelling of a name or a tag is mentioned on
the right, so it does not matter whether a name is defined twice or a tag given twice. -/
theorem parseFile_ok_iff_derives (p : Program) (source : SourceFile) :
    (p.parseFile source).error? = none ↔
      Derives (.rule .file) (Token.kindsBeforeFinish (Token.scan source.text)) ∧
      (∀ t ∈ Token.scan source.text, t.kind = .int → numberOfInteger t.text < 2 ^ 64) ∧
      ∀ t ∈ Token.scan source.text, t.kind = .float → numberOfFloat t.text < Binary64.overflow := by
  obtain ⟨ts, stop, hscan, hspells⟩ := Token.scanFrom_eq_append 0 source.text.toList
  have hts : ∀ t ∈ ts, t.kind ≠ .finish := fun t ht ↦ Token.kind_ne_finish (hspells t ht)
  have hvalues : (∀ t ∈ ts, t.HasValue) ↔
      (∀ t ∈ ts, t.kind = .int → numberOfInteger t.text < 2 ^ 64) ∧
      ∀ t ∈ ts, t.kind = .float → numberOfFloat t.text < Binary64.overflow := by
    rw [← forall₂_and]
    exact forall₂_congr fun t ht ↦ Token.hasValue_iff (hspells t ht)
  rw [parseFile_ok_iff_spans p hscan hts, spans_append_iff, hvalues, Token.scan,
    Token.scanList, hscan, Token.kindsBeforeFinish_append hts]
  -- the end mark is neither of the two kinds
  simp only [List.forall_mem_append, List.forall_mem_singleton, Token.finishAt, reduceCtorEq,
    false_implies, and_true]

/-- A tag and a name given twice are reported, and the file can be read. -/
example :
    let source : SourceFile :=
      ⟨"a.berry", "@[a, a(\"x\")] func f(a, a: i32) { 0x1F + 1.5e3; } let f = 1;"⟩
    ((empty "m").parseFile source).error? = none ∧
      ((empty "m").parseFile source).diagnostics.length = 2 := by
  decide +kernel

end Program

end FrontEnd
