import GadgetBuild.Proofs.Import.Requires
import GadgetBuild.Proofs.Json.Lines

/-!
On which line rewriting leaves what it does not rewrite. The declarations have the line feeds of the
clause without those in its separators, and the name of a module is printed without line feeds.
-/

namespace GadgetBuild

namespace Import

theorem lineFeeds_runtimeRequire (name : Text) : (runtimeRequire name).lineFeeds = 0 := by
  have hopen : Text.lineFeeds "require(".toList = 0 := by decide
  have hclose : Text.lineFeeds ")".toList = 0 := by decide
  unfold runtimeRequire
  rw [Text.lineFeeds_append, Text.lineFeeds_append, Json.lineFeeds_quote, hopen, hclose]

theorem lineFeeds_moduleConstant (n : Nat) : (moduleConstant n).lineFeeds = 0 := by
  have hlead : Text.lineFeeds "__mw_module".toList = 0 := by decide
  unfold moduleConstant
  rw [Text.lineFeeds_append, Text.lineFeeds_ofNat, hlead]

/-- The line feeds of the declarations are those of the pattern. -/
theorem Statement.lineFeeds_declarations (code : Text) (n : Nat) (s : Statement) :
    (s.declarations code n).lineFeeds = (s.pattern code).lineFeeds := by
  have hconst : constWord.lineFeeds = 0 := by decide
  have hequals : equals.lineFeeds = 0 := by decide
  have hend : Text.lineFeeds [';'] = 0 := by decide
  simp only [declarations, Text.lineFeeds_append, hconst, hequals, hend, lineFeeds_runtimeRequire,
    lineFeeds_moduleConstant, Nat.zero_add, Nat.add_zero]

/-- The line feeds of a statement are those of its clause and of the module's name. -/
theorem Spelling.lineFeeds_text (x : Spelling) :
    x.text.lineFeeds = x.clause.lineFeeds + x.name.lineFeeds := by
  have himport : importWord.lineFeeds = 0 := by decide
  have hfrom : fromWord.lineFeeds = 0 := by decide
  have hend : statementEnd.lineFeeds = 0 := by decide
  have hlead : x.lead.lineFeeds = 0 := by
    rcases x.isLead with h | h
    · rw [h]
      decide
    · rw [h]
      decide
  simp only [text, ending, Text.lineFeeds_append, himport, hfrom, hend, hlead, Nat.zero_add,
    Nat.add_zero]

/-- Nothing that rewriting prints on one line was spelled with a line feed. -/
def Statement.OnLines (code : Text) (s : Statement) : Prop :=
  '\n' ∉ s.module.name ∧ ∀ r ∈ separators s.bindings, '\n' ∉ code.slice r.start r.stop

namespace Ahead

theorem part_span (h : Ahead code [] p rest x s edits) : Text.part 0 s.span code = x.text := by
  have hstop : s.span.stop = s.span.start + x.text.size := by
    rw [h.reads.start_eq, h.reads.stop_eq]
  rw [h.code_eq, List.nil_append]
  exact Text.part_append (by simpa using h.reads.start_eq) hstop

/-- A part of the clause is the same part of the code. -/
theorem part_clause (h : Ahead code [] p rest x s edits) (hr : r ∈ separators s.bindings) :
    Text.part s.clause.start r x.clause = code.slice r.start r.stop := by
  obtain ⟨u, m, v, hclause, hstart, hstop⟩ := h.reads.inner.marks.exists_part hr
  have hbefore := h.size_before_clause
  have hsize : Text.size ([] ++ p ++ importWord ++ u) = r.start := by
    rw [Text.size_append, hbefore, hstart]
  have hcode : code = ([] ++ p ++ importWord ++ u) ++ m ++ (v ++ (x.ending ++ rest)) := by
    rw [h.text_eq, hclause]
    simp only [List.append_assoc]
  have hslice := Text.slice_size_append ([] ++ p ++ importWord ++ u) m (v ++ (x.ending ++ rest))
  rw [hsize, ← hstop, ← hcode] at hslice
  rw [hslice, hclause, Text.part_append hstart hstop]

/-- The declarations of a statement have no more line feeds than the statement. -/
theorem lineFeeds_declarations (h : Ahead code [] p rest x s edits) :
    (s.declarations code n).lineFeeds ≤ (Text.part 0 s.span code).lineFeeds ∧
      ((s.declarations code n).lineFeeds = (Text.part 0 s.span code).lineFeeds ↔
        s.OnLines code) := by
  have hcolon : colon.lineFeeds = 0 := by decide
  have hmarks := h.reads.inner.marks
  rw [← Text.map_fst_parts (separators s.bindings) fun _ => colon] at hmarks
  obtain ⟨hle, hiff⟩ := Text.lineFeeds_splice hmarks fun y hy => by
    obtain ⟨r, _, rfl⟩ := List.mem_map.mp hy
    rw [hcolon]
    exact Nat.zero_le _
  have hseparators : (∀ y ∈ (separators s.bindings).map fun r => (r, colon),
      y.2.lineFeeds = (Text.part s.clause.start y.1 x.clause).lineFeeds) ↔
      ∀ r ∈ separators s.bindings, '\n' ∉ code.slice r.start r.stop := by
    rw [List.forall_mem_map]
    apply forall₂_congr
    intro r hr
    rw [hcolon, h.part_clause hr, eq_comm, Text.lineFeeds_eq_zero]
  rw [hseparators] at hiff
  rw [s.lineFeeds_declarations, Statement.pattern, h.clause_slice, h.part_span, x.lineFeeds_text,
    Statement.OnLines, ← hiff, h.reads.module_eq, ← Text.lineFeeds_eq_zero]
  change _ ∧ (_ ↔ x.name.lineFeeds = 0 ∧ _)
  omega

end Ahead

theorem mem_declarationsFrom (hx : x ∈ declarationsFrom code n statements) :
    ∃ s ∈ statements, ∃ k, x = (s.span, s.declarations code k) := by
  induction statements generalizing n with
  | nil => cases hx
  | cons s statements ih =>
    rcases List.mem_cons.mp hx with rfl | hx
    · exact ⟨s, by simp, n, rfl⟩
    · obtain ⟨r, hr, k, he⟩ := ih hx
      exact ⟨r, by simp [hr], k, he⟩

theorem exists_mem_declarationsFrom (code : Text) (n : Nat) (hs : s ∈ statements) :
    ∃ k, (s.span, s.declarations code k) ∈ declarationsFrom code n statements := by
  induction statements generalizing n with
  | nil => cases hs
  | cons r statements ih =>
    rcases List.mem_cons.mp hs with rfl | hs
    · exact ⟨n, List.mem_cons_self⟩
    · obtain ⟨k, hk⟩ := ih hs (n := n + 1)
      exact ⟨k, List.mem_cons_of_mem _ hk⟩

/-- What the beginning of the code becomes, up to a place outside of the statements. -/
def rewritten (code : Text) (statements : List Statement) (before : Text) : Text :=
  Text.splice 0 ((declarationsFrom code 0 statements).filter (·.1.stop ≤ before.size)) before

/-- The code that comes out has the line feeds of the code that went in, and each character that is
in no statement stands on its line. -/
structure KeepsLines (code : Text) (statements : List Statement) (out : Text) : Prop where
  count : out.lineFeeds = code.lineFeeds
  line : ∀ before c after, code = before ++ c :: after →
    (∀ s ∈ statements, ¬ (s.span.start ≤ before.size ∧ before.size < s.span.stop)) →
    ∃ rest, out = rewritten code statements before ++ c :: rest ∧
      (rewritten code statements before).lineFeeds = before.lineFeeds

theorem Stand.keepsLines_iff (h : Stand 0 statements code) :
    KeepsLines code statements (Text.splice 0 (declarationsFrom code 0 statements) code) ↔
      ∀ s ∈ statements, s.OnLines code := by
  have hmarks : Text.Marks 0 ((declarationsFrom code 0 statements).map (·.1)) code := by
    rw [declarationsFrom_spans]
    exact h.marks
  have hle : ∀ y ∈ declarationsFrom code 0 statements,
      y.2.lineFeeds ≤ (Text.part 0 y.1 code).lineFeeds := by
    intro y hy
    obtain ⟨s, hs, k, rfl⟩ := mem_declarationsFrom hy
    obtain ⟨p, x, rest, hx⟩ := h.ahead hs
    exact hx.lineFeeds_declarations.1
  have hcount := (Text.lineFeeds_splice hmarks hle).2
  constructor
  · intro hkeeps s hs
    obtain ⟨p, x, rest, hx⟩ := h.ahead hs
    obtain ⟨k, hk⟩ := exists_mem_declarationsFrom code 0 hs
    exact hx.lineFeeds_declarations.2.mp (hcount.mp hkeeps.count _ hk)
  · intro hon
    have heq : ∀ y ∈ declarationsFrom code 0 statements,
        y.2.lineFeeds = (Text.part 0 y.1 code).lineFeeds := by
      intro y hy
      obtain ⟨s, hs, k, rfl⟩ := mem_declarationsFrom hy
      obtain ⟨p, x, rest, hx⟩ := h.ahead hs
      exact hx.lineFeeds_declarations.2.mpr (hon s hs)
    refine ⟨hcount.mpr heq, ?_⟩
    rintro before c after rfl hout
    have hout' : ∀ y ∈ declarationsFrom (before ++ c :: after) 0 statements,
        ¬ (y.1.start ≤ 0 + before.size ∧ 0 + before.size < y.1.stop) := by
      intro y hy
      obtain ⟨s, hs, k, rfl⟩ := mem_declarationsFrom hy
      simpa using hout s hs
    obtain ⟨hmarks', rest, hrest⟩ := Text.splice_split hmarks hout'
    rw [Nat.zero_add] at hmarks' hrest
    have heq' : ∀ y ∈ (declarationsFrom (before ++ c :: after) 0 statements).filter
        (·.1.stop ≤ before.size), y.2.lineFeeds = (Text.part 0 y.1 before).lineFeeds := by
      intro y hy
      rw [heq y (List.mem_filter.mp hy).1,
        hmarks'.part_prefix (List.mem_map.mpr ⟨y, hy, rfl⟩) (c :: after)]
    have hle := Text.lineFeeds_splice hmarks' fun y hy => Nat.le_of_eq (heq' y hy)
    exact ⟨rest, hrest, hle.2.mpr heq'⟩

/-- Rewriting keeps later code on its line exactly when each separator and each module's name is
spelled on one line. -/
theorem keeps_lines_iff {id : Text} (hscan : scan code = .ok statements)
    (hout : toRequires id code = .ok (some out)) : KeepsLines code statements out.code ↔
      ∀ s ∈ statements, '\n' ∉ s.module.name ∧
        ∀ r ∈ separators s.bindings, '\n' ∉ code.slice r.start r.stop := by
  have hne : statements ≠ [] := by
    rintro rfl
    unfold toRequires at hout
    rw [hscan] at hout
    cases hout
  obtain ⟨out', hout', hcode⟩ := toRequires_of_scan id hscan hne
  rw [hout] at hout'
  cases hout'
  rw [hcode]
  exact (stand_of_scan hscan).1.keepsLines_iff

/-- A clause over several lines, and code behind it. -/
def tallImport : Text :=
  "import \x7b\n  a,\n  b as c,\n\x7d from \"\x00mw-userscript:vue\";\nc(a);".toList

theorem tallImport_keeps_lines : ∃ statements out,
    toRequires "b.js".toList tallImport = .ok (some out) ∧
      KeepsLines tallImport statements out.code := by
  have hscan : scan tallImport = .ok [⟨⟨0, 52⟩, ⟨7, 25⟩, ⟨"vue".toList⟩,
      [⟨['a'], ['a'], none⟩, ⟨['b'], ['c'], some ⟨17, 21⟩⟩]⟩] := by
    decide +kernel
  obtain ⟨out, hout, _⟩ := toRequires_of_scan "b.js".toList hscan (by simp)
  refine ⟨_, out, hout, (keeps_lines_iff hscan hout).mpr ?_⟩
  intro s hs
  obtain rfl := List.mem_singleton.mp hs
  decide +kernel

/-- A separator with a line feed. -/
def splitAlias : Text :=
  "import \x7b a as\nb \x7d from \"\x00mw-userscript:vue\";\nb();".toList

/-- The line feed of a separator is lost, and with it the line of what follows. -/
theorem splitAlias_loses_line : splitAlias.lineFeeds = 2 ∧
    ∃ out, toRequires "b.js".toList splitAlias = .ok (some out) ∧ out.code.lineFeeds = 1 := by
  have hscan : scan splitAlias =
      .ok [⟨⟨0, 44⟩, ⟨7, 17⟩, ⟨"vue".toList⟩, [⟨['a'], ['b'], some ⟨10, 14⟩⟩]⟩] := by
    decide +kernel
  obtain ⟨out, hout, hcode⟩ := toRequires_of_scan "b.js".toList hscan (by simp)
  refine ⟨by decide +kernel, out, hout, ?_⟩
  rw [hcode]
  decide +kernel

end Import
end GadgetBuild
