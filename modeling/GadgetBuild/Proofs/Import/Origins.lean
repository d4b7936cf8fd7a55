import GadgetBuild.Proofs.Import.LineNumbers
import GadgetBuild.Proofs.Overlay.Origins

/-!
Where the source map of rewritten code leads. Code outside of the statements is traced to its own
place, and so are the names of a clause, although it stands behind the call. Only line feeds need
another character before them: the map has no token for a line feed that begins what is kept.
-/

namespace GadgetBuild.Import

open Overlay SourceMap

/-- The characters of a stretch that stands behind `place` are traced to where they stand behind
`before`, a line feed if it stands behind another character of its line in the stretch. -/
def StretchTraced (tokens : List Token) (place before stretch : Text) : Prop :=
  ∀ u c v, stretch = u ++ c :: v → (c ≠ '\n' ∨ ∃ u' d, u = u' ++ [d] ∧ d ≠ '\n') →
    Traces tokens (Position.zero.advance (place ++ u)) (Position.zero.advance (before ++ u))

/-- Kept text that is shown in one piece is traced, wherever it is shown. -/
theorem stretchTraced_of_visible {before stretch after : Text}
    (run : Accepted code edits o) (hshown : o.weave.shown = some l)
    (hcode : code = before ++ (stretch ++ after))
    (hvisible : visible (o.weave.glyphs l) = first ++ (olds before.size stretch ++ rest)) :
    StretchTraced ((linksOfGlyphs code true .zero (o.weave.glyphs l)).map Link.token)
      (first.flatMap Glyph.text) before stretch := by
  rintro u c v rfl hc
  have hpath : visible (o.weave.glyphs l) = (first ++ olds before.size u) ++
      .old (before ++ u).size c :: (olds ((before ++ u).size + c.utf8Size) v ++ rest) := by
    rw [hvisible, olds_append, Text.size_append]
    simp only [olds, List.append_assoc, List.cons_append]
  obtain ⟨b, a, hglyphs, hb, -⟩ := exists_of_visible hpath
  have hbefore : b.flatMap Glyph.text = first.flatMap Glyph.text ++ u := by
    rw [← visible_text, hb, List.flatMap_append, olds_text]
  have hlinked : Linked b (before ++ u).size c := by
    refine hc.imp_right ?_
    rintro ⟨u', d, rfl, hd⟩
    rw [olds_append, ← List.append_assoc] at hb
    obtain ⟨init, between, rfl, -, hbetween⟩ := exists_of_visible hb
    refine ⟨init, _, d, between, rfl, hd, ?_, ?_⟩
    · rw [← List.append_assoc, Text.size_append, Text.size_append]
      simp
    · rw [← visible_text, hbetween]
      rfl
  have htraces := traces_of_linked hglyphs (chain_glyphs _ _) (run.genuine hshown) hlinked
  have hplace : place code (before ++ u).size = Position.zero.advance (before ++ u) := by
    rw [hcode, List.append_assoc u, ← List.append_assoc before, place_size]
  rwa [hbefore, hplace] at htraces

theorem glyphsFrom_spans (code : Text) (n : Nat) (statements : List Statement) :
    (glyphsFrom code n statements).map (·.1) = statements.map (·.span) := by
  induction statements generalizing n with
  | nil => rfl
  | cons s statements ih => simp [glyphsFrom, ih]

theorem mem_glyphsFrom (code : Text) (n : Nat) {statements : List Statement} {i : Nat}
    (hs : statements[i]? = some s) :
    (s.span, s.glyphs code (n + i)) ∈ glyphsFrom code n statements := by
  induction statements generalizing n i with
  | nil => cases hs
  | cons r statements ih =>
    cases i with
    | zero =>
      obtain rfl := Option.some.inj hs
      exact List.mem_cons_self
    | succ i =>
      have h := ih (n + 1) hs
      rw [Nat.add_right_comm, Nat.add_assoc] at h
      exact List.mem_cons_of_mem _ h

/-- The glyphs before a place show what the beginning of the code becomes. -/
theorem rewritten_eq (code : Text) (statements : List Statement) (before : Text) :
    (spliced 0 ((glyphsFrom code 0 statements).filter (·.1.stop ≤ before.size)) before).flatMap
      Glyph.text = rewritten code statements before := by
  rw [spliced_text, rewritten, ← glyphsFrom_text, List.filter_map]
  rfl

/-- The declarations up to the pattern. -/
def Statement.call (n : Nat) (s : Statement) : Text :=
  constWord ++ moduleConstant n ++ equals ++ (runtimeRequire s.module.name ++ [';']) ++ constWord

theorem Statement.callGlyphs_text (n : Nat) (s : Statement) :
    (s.callGlyphs n).flatMap Glyph.text = s.call n := by
  rw [callGlyphs, call]
  simp only [List.flatMap_cons, List.flatMap_nil, Glyph.text, List.append_assoc, List.append_nil]

/-- What the code up to a place in the clause of the `n`th statement becomes: what stands before the
statement, the call, and the pattern up to that place. -/
def rewrittenClause (code : Text) (statements : List Statement) (n : Nat) (s : Statement)
    (before : Text) : Text :=
  rewritten code statements (code.upTo s.span.start) ++ (s.call n ++
    Text.splice s.clause.start
      (((separators s.bindings).filter (·.stop ≤ before.size)).map fun r => (r, colon))
      (before.beyond s.clause.start))

/-- What the source map of rewritten code says of what was kept. -/
structure MapExact (code : Text) (statements : List Statement) (out : Text) (tokens : List Token) :
    Prop where
  file_eq : ∀ t ∈ tokens, t.file = 0
  increasing : tokens.Pairwise fun a b => a.generated < b.generated
  outside : ∀ before stretch after, code = before ++ (stretch ++ after) →
    (∀ s ∈ statements, s.span.stop ≤ before.size ∨ (before ++ stretch).size ≤ s.span.start) →
    ∃ rest, out = rewritten code statements before ++ (stretch ++ rest) ∧
      StretchTraced tokens (rewritten code statements before) before stretch
  clause : ∀ (n : Nat) s before stretch after, statements[n]? = some s →
    code = before ++ (stretch ++ after) → s.clause.start ≤ before.size →
    (before ++ stretch).size ≤ s.clause.stop →
    (∀ r ∈ separators s.bindings, r.stop ≤ before.size ∨ (before ++ stretch).size ≤ r.start) →
    ∃ rest, out = rewrittenClause code statements n s before ++ (stretch ++ rest) ∧
      StretchTraced tokens (rewrittenClause code statements n s before) before stretch

/-- What is kept in one piece is rendered and traced. -/
theorem exists_rest_of_visible {before stretch after shown : Text} (run : Accepted code edits o)
    (hshown : o.weave.shown = some l) (hcode : code = before ++ (stretch ++ after))
    (hvisible : visible (o.weave.glyphs l) = first ++ (olds before.size stretch ++ last))
    (hfirst : first.flatMap Glyph.text = shown) :
    ∃ rest, (o.weave.glyphs l).flatMap Glyph.text = shown ++ (stretch ++ rest) ∧
      StretchTraced ((linksOfGlyphs code true .zero (o.weave.glyphs l)).map Link.token) shown before
        stretch := by
  refine ⟨last.flatMap Glyph.text, ?_,
    hfirst ▸ stretchTraced_of_visible run hshown hcode hvisible⟩
  rw [← visible_text, hvisible, List.flatMap_append, List.flatMap_append, olds_text,
    hfirst]

/-- A stretch of the clause that no separator reaches into is kept in the pattern. -/
theorem Ahead.exists_stretch (h : Ahead code [] p tail x s []) {before stretch after : Text}
    (hcode : code = before ++ (stretch ++ after)) (hstart : s.clause.start ≤ before.size)
    (hstop : (before ++ stretch).size ≤ s.clause.stop)
    (hfree : ∀ r ∈ separators s.bindings,
      r.stop ≤ before.size ∨ (before ++ stretch).size ≤ r.start) :
    ∃ first rest, s.patternGlyphs code = first ++ (olds before.size stretch ++ rest) ∧
      first.flatMap Glyph.text = Text.splice s.clause.start
        (((separators s.bindings).filter (·.stop ≤ before.size)).map fun r => (r, colon))
        (before.beyond s.clause.start) := by
  have hfront := h.size_before_clause
  rw [List.nil_append] at hfront
  have htext := h.text_eq
  rw [List.nil_append, ← List.append_assoc p, hcode] at htext
  obtain ⟨u, rfl, hrest⟩ := Text.append_of_size_le htext.symm (by omega)
  have hsize : (p ++ importWord ++ u).size = s.clause.start + u.size := by
    rw [Text.size_append, hfront]
  have hend := h.reads.clause_stop
  rw [Text.size_append, hsize] at hstop
  rw [← List.append_assoc u] at hrest
  obtain ⟨v, hclause, -⟩ := Text.append_of_size_le hrest.symm (by rw [Text.size_append]; omega)
  rw [List.append_assoc] at hclause
  have hmarks := h.reads.inner.marks
  rw [← Text.map_fst_parts (separators s.bindings) fun r => [Glyph.new r.start colon], hclause]
    at hmarks
  have hparts : ∀ y ∈ (separators s.bindings).map fun r => (r, [Glyph.new r.start colon]),
      y.1.stop ≤ s.clause.start + u.size ∨ s.clause.start + (u ++ stretch).size ≤ y.1.start := by
    intro y hy
    obtain ⟨r, hr, rfl⟩ := List.mem_map.mp hy
    have := hfree r hr
    rw [Text.size_append (p ++ importWord ++ u), hsize] at this
    rw [Text.size_append]
    change r.stop ≤ _ ∨ _ ≤ r.start
    omega
  obtain ⟨rest, hsplit⟩ := spliced_split hmarks hparts
  have hbeyond : (p ++ importWord ++ u).beyond s.clause.start = u := by
    rw [← hfront, Text.beyond_size_append]
  have hfilter : ((separators s.bindings).map fun r => (r, [Glyph.new r.start colon])).filter
      (·.1.stop ≤ s.clause.start + u.size) =
      ((separators s.bindings).filter (·.stop ≤ s.clause.start + u.size)).map fun r =>
        (r, [Glyph.new r.start colon]) :=
    List.filter_map
  rw [hfilter] at hsplit
  rw [Statement.patternGlyphs, h.clause_slice, hclause, hsplit, hsize, hbeyond]
  exact ⟨_, rest, rfl, spliced_colons_text _ _ _⟩

theorem Stand.marks_glyphs (h : Stand 0 statements code) :
    Text.Marks 0 ((glyphsFrom code 0 statements).map (·.1)) code := by
  rw [glyphsFrom_spans]
  exact h.marks

section

variable {statements : List Statement} {before stretch after : Text} {o : Overlay}
  {l : List Segment} (hstand : Stand 0 statements code) (run : Accepted code edits o)
  (hshown : o.weave.shown = some l)
  (hvisible : visible (o.weave.glyphs l) = spliced 0 (glyphsFrom code 0 statements) code)
  (hcode : code = before ++ (stretch ++ after))

include hstand run hshown hvisible hcode

/-- A stretch between the statements is traced to its place. -/
theorem Stand.outside_traced (hfree : ∀ s ∈ statements,
      s.span.stop ≤ before.size ∨ (before ++ stretch).size ≤ s.span.start) :
    ∃ rest, (o.weave.glyphs l).flatMap Glyph.text = rewritten code statements before ++ (stretch ++ rest) ∧
      StretchTraced ((linksOfGlyphs code true .zero (o.weave.glyphs l)).map Link.token)
        (rewritten code statements before) before stretch := by
  have hmarks := hstand.marks_glyphs
  have hparts : ∀ y ∈ glyphsFrom code 0 statements,
      y.1.stop ≤ 0 + before.size ∨ 0 + (before ++ stretch).size ≤ y.1.start := by
    intro y hy
    have hspan : y.1 ∈ statements.map (·.span) := by
      rw [← glyphsFrom_spans code 0]
      exact List.mem_map.mpr ⟨y, hy, rfl⟩
    obtain ⟨s, hs, he⟩ := List.mem_map.mp hspan
    rw [Nat.zero_add, Nat.zero_add, ← he]
    exact hfree s hs
  rw [hcode] at hmarks hparts
  obtain ⟨rest, hsplit⟩ := spliced_split hmarks hparts
  rw [Nat.zero_add, ← hcode] at hsplit
  exact exists_rest_of_visible run hshown hcode (hvisible.trans hsplit)
    (rewritten_eq code statements before)

/-- A stretch of a clause between its separators is traced to its place, behind the call. -/
theorem Stand.clause_traced {s : Statement} (hs : statements[n]? = some s)
    (hstart : s.clause.start ≤ before.size) (hstop : (before ++ stretch).size ≤ s.clause.stop)
    (hfree : ∀ r ∈ separators s.bindings,
      r.stop ≤ before.size ∨ (before ++ stretch).size ≤ r.start) :
    ∃ rest, (o.weave.glyphs l).flatMap Glyph.text = rewrittenClause code statements n s before ++ (stretch ++ rest) ∧
      StretchTraced ((linksOfGlyphs code true .zero (o.weave.glyphs l)).map Link.token)
        (rewrittenClause code statements n s before) before stretch := by
  obtain ⟨p, x, tail, hx⟩ := hstand.ahead (List.mem_of_getElem? hs)
  obtain ⟨first, last, hpattern, hfirst⟩ := hx.exists_stretch hcode hstart hstop hfree
  obtain ⟨rest, hat⟩ := spliced_at hstand.marks_glyphs (mem_glyphsFrom code 0 hs)
  have hp : s.span.start = p.size := by
    rw [hx.reads.start_eq, Text.size_nil, Nat.zero_add]
  have hfront : code.upTo s.span.start = p := by
    rw [hp, hx.code_eq, List.nil_append, Text.upTo_size_append]
  rw [Nat.sub_zero, Nat.zero_add, hfront, hp, Statement.glyphs, hpattern] at hat
  have hsplit : visible (o.weave.glyphs l) =
      (spliced 0 ((glyphsFrom code 0 statements).filter (·.1.stop ≤ p.size)) p ++
        (s.callGlyphs n ++ first)) ++ (olds before.size stretch ++ (last ++
          [.inserted (equals ++ moduleConstant n ++ [';'])] ++ rest)) := by
    rw [hvisible, hat]
    simp only [List.append_assoc]
  refine exists_rest_of_visible run hshown hcode hsplit ?_
  rw [List.flatMap_append, List.flatMap_append, hfirst, s.callGlyphs_text, rewritten_eq,
    rewrittenClause, hfront]

end

/-- The source map of rewritten code can be read. It has one source and the code that went in, and
what is kept of that is traced to its place, a line feed behind another character of its line. -/
theorem rewritten_map_exact {id : Text} (hscan : scan code = .ok statements)
    (hout : toRequires id code = .ok (some out)) :
    out.map.source = id ∧ out.map.content = code ∧
      ∃ tokens, SourceMap.decode (SourceMap.encode out.map.links) = some tokens ∧
        MapExact code statements out.code tokens := by
  obtain ⟨o, l, m, hout', hmap, run, hshown, hvisible⟩ :=
    exists_trace_of_scan id hscan (ne_nil_of_toRequires hscan hout)
  rw [hout] at hout'
  cases hout'
  have hincreasing : (linksOfGlyphs code true .zero (o.weave.glyphs l)).Pairwise
      fun a b => a.generated < b.generated := increasing_linksOfGlyphs true .zero _
  have hstand := (stand_of_scan hscan).1
  rw [sourceMap, run.links_eq hshown, Option.map_some] at hmap
  obtain rfl := Option.some.inj hmap
  refine ⟨rfl, run.text_eq, (linksOfGlyphs code true .zero (o.weave.glyphs l)).map Link.token,
    SourceMap.decode_encode hincreasing, ?_⟩
  exact {
    file_eq := fun t ht => by
      obtain ⟨l, -, rfl⟩ := List.mem_map.mp ht
      rfl
    increasing := List.pairwise_map.mpr hincreasing
    outside := fun before stretch after hcode hfree =>
      hstand.outside_traced run hshown hvisible hcode hfree
    clause := fun n s before stretch after hs hcode hstart hstop hfree =>
      hstand.clause_traced run hshown hvisible hcode hs hstart hstop hfree }

/-- Two imports, with characters of two and four bytes before and between them. -/
def importsBehindText : Text :=
  ("😀;import \x7b a as b, c \x7d from \"\x00mw-userscript:vue\"; // é\n" ++
    "import \x7b d \x7d from \"\x00mw-userscript:d\";\nb(d);").toList

theorem importsBehindText_map_exact : ∃ statements out tokens,
    toRequires "b.js".toList importsBehindText = .ok (some out) ∧
      SourceMap.decode (SourceMap.encode out.map.links) = some tokens ∧
      MapExact importsBehindText statements out.code tokens := by
  have hscan : scan importsBehindText =
      .ok [⟨⟨5, 52⟩, ⟨12, 25⟩, ⟨"vue".toList⟩,
          [⟨['a'], ['b'], some ⟨15, 19⟩⟩, ⟨['c'], ['c'], none⟩]⟩,
        ⟨⟨59, 96⟩, ⟨66, 71⟩, ⟨"d".toList⟩, [⟨['d'], ['d'], none⟩]⟩] := by
    decide +kernel
  obtain ⟨out, hout, -⟩ := toRequires_of_scan "b.js".toList hscan (by simp)
  obtain ⟨-, -, tokens, hdecode, hexact⟩ := rewritten_map_exact hscan hout
  exact ⟨_, out, tokens, hout, hdecode, hexact⟩

/-- An import behind a line feed. -/
def importBehindLineFeed : Text :=
  "\nimport \x7b a \x7d from \"\x00mw-userscript:vue\";".toList

/-- The line feed is kept, and no token stands on its line. -/
theorem importBehindLineFeed_not_traced : ∃ s out tokens,
    scan importBehindLineFeed = .ok [s] ∧ 1 ≤ s.span.start ∧
      toRequires "b.js".toList importBehindLineFeed = .ok (some out) ∧
      SourceMap.decode (SourceMap.encode out.map.links) = some tokens ∧
      rewritten importBehindLineFeed [s] [] = [] ∧ out.code.head? = some '\n' ∧
      ¬ Traces tokens (Position.zero.advance []) (Position.zero.advance []) := by
  have hscan : scan importBehindLineFeed =
      .ok [⟨⟨1, 40⟩, ⟨8, 13⟩, ⟨"vue".toList⟩, [⟨['a'], ['a'], none⟩]⟩] := by
    decide +kernel
  have hout : toRequires "b.js".toList importBehindLineFeed = .ok (some
      ⟨"\nconst __mw_module0 = require(\"vue\");const \x7b a \x7d = __mw_module0;".toList,
        ⟨"b.js".toList, importBehindLineFeed,
          [⟨⟨1, 0⟩, ⟨1, 0⟩⟩, ⟨⟨1, 21⟩, ⟨1, 12⟩⟩, ⟨⟨1, 42⟩, ⟨1, 7⟩⟩]⟩⟩) := by
    decide +kernel
  refine ⟨_, _, [⟨⟨1, 0⟩, 0, ⟨1, 0⟩⟩, ⟨⟨1, 21⟩, 0, ⟨1, 12⟩⟩, ⟨⟨1, 42⟩, 0, ⟨1, 7⟩⟩], hscan,
    Nat.le_refl 1, hout, by decide +kernel, by decide +kernel, by decide +kernel, ?_⟩
  rintro ⟨t, ht, -⟩
  cases ht

end GadgetBuild.Import
