import GadgetBuild.Import.Require
import GadgetBuild.Proofs.Import.Statements
import GadgetBuild.Proofs.Overlay.Spliced

/-!
Code with its statements rewritten is the code with two declarations in place of each statement.
No edit of a statement is rejected, whatever surrounds it.
-/

namespace GadgetBuild.Import

open Overlay

def constWord : Text := "const ".toList

theorem constWord_ne_nil : constWord ≠ [] := by decide

def equals : Text := " = ".toList

/-- What stands between the names of the second declaration. -/
def colon : Text := ": ".toList

/-- The clause as a pattern: a colon in place of each separator. -/
def Statement.pattern (code : Text) (s : Statement) : Text :=
  Text.splice s.clause.start ((separators s.bindings).map fun r => (r, colon))
    (code.slice s.clause.start s.clause.stop)

/-- The declarations in place of the `n`th statement. -/
def Statement.declarations (code : Text) (n : Nat) (s : Statement) : Text :=
  constWord ++ moduleConstant n ++ equals ++ runtimeRequire s.module.name ++ [';'] ++
    (constWord ++ s.pattern code ++ equals ++ moduleConstant n ++ [';'])

/-- The glyphs of the clause as a pattern. -/
def Statement.patternGlyphs (code : Text) (s : Statement) : List Glyph :=
  spliced s.clause.start ((separators s.bindings).map fun r => (r, [.new r.start colon]))
    (code.slice s.clause.start s.clause.stop)

/-- The glyphs up to the pattern. -/
def Statement.callGlyphs (n : Nat) (s : Statement) : List Glyph :=
  [.new s.span.start (constWord ++ moduleConstant n ++ equals),
    .new s.clause.stop (runtimeRequire s.module.name ++ [';']), .inserted constWord]

/-- The glyphs of the declarations. Of what was there before only the clause is kept. -/
def Statement.glyphs (code : Text) (n : Nat) (s : Statement) : List Glyph :=
  s.callGlyphs n ++ (s.patternGlyphs code ++ [.inserted (equals ++ moduleConstant n ++ [';'])])

theorem spliced_colons_text (offset : Nat) (spans : List Span) (t : Text) :
    (spliced offset (spans.map fun r => (r, [Glyph.new r.start colon])) t).flatMap Glyph.text =
      Text.splice offset (spans.map fun r => (r, colon)) t := by
  have hparts : (spans.map fun r => (r, [Glyph.new r.start colon])).map
      (fun x => (x.1, x.2.flatMap Glyph.text)) = spans.map fun r => (r, colon) := by
    rw [List.map_map]
    exact List.map_congr_left fun r _ => Prod.ext rfl (List.append_nil colon)
  rw [spliced_text, hparts]

theorem Statement.patternGlyphs_text (code : Text) (s : Statement) :
    (s.patternGlyphs code).flatMap Glyph.text = s.pattern code :=
  spliced_colons_text _ _ _

theorem Statement.glyphs_text (code : Text) (n : Nat) (s : Statement) :
    (s.glyphs code n).flatMap Glyph.text = s.declarations code n := by
  rw [glyphs, callGlyphs, List.flatMap_append, List.flatMap_append, patternGlyphs_text, declarations]
  simp only [List.flatMap_cons, List.flatMap_nil, Glyph.text, List.append_assoc, List.append_nil]

/-- The same for statements the first of which is the `n`th. -/
def declarationsFrom (code : Text) (n : Nat) : List Statement → List (Span × Text)
  | [] => []
  | s :: statements =>
    (s.span, s.declarations code n) :: declarationsFrom code (n + 1) statements

theorem declarationsFrom_spans (code : Text) (n : Nat) (statements : List Statement) :
    (declarationsFrom code n statements).map (·.1) = statements.map (·.span) := by
  induction statements generalizing n with
  | nil => rfl
  | cons s statements ih => simp [declarationsFrom, ih]

def glyphsFrom (code : Text) (n : Nat) : List Statement → List (Span × List Glyph)
  | [] => []
  | s :: statements => (s.span, s.glyphs code n) :: glyphsFrom code (n + 1) statements

theorem glyphsFrom_text (code : Text) (n : Nat) (statements : List Statement) :
    (glyphsFrom code n statements).map (fun x => (x.1, x.2.flatMap Glyph.text)) =
      declarationsFrom code n statements := by
  induction statements generalizing n with
  | nil => rfl
  | cons s statements ih =>
    rw [glyphsFrom, List.map_cons, ih, s.glyphs_text]
    rfl

theorem inText_of_append {u m v : Text} (hstart : s.start = u.size)
    (hstop : s.stop = s.start + m.size) : History.InText (u ++ (m ++ v)) s := by
  refine ⟨by omega, ?_, ?_⟩
  · rw [hstart]
    exact Text.isBoundary_size_append u _
  · rw [hstop, hstart, ← Text.size_append, ← List.append_assoc]
    exact Text.isBoundary_size_append _ v

theorem not_meets {r : Span} (h : r.stop ≤ start ∨ stop ≤ r.start) : ¬ r.Meets start stop := by
  unfold Span.Meets
  omega

/-- An untouched segment cut at both ends of a part of it. -/
theorem cut_part {s : Span} {x m y : Text} (hx : x ≠ []) (hm : m ≠ []) (hy : y ≠ [])
    (hstart : s.start = start + x.size) (hstop : s.stop = s.start + m.size) :
    (Segment.cut s.start ⟨start, x ++ (m ++ y), [], none, trail⟩).flatMap (Segment.cut s.stop) =
      [⟨start, x, [], none, []⟩, ⟨s.start, m, [], none, []⟩, ⟨s.stop, y, [], none, trail⟩] := by
  have hbefore : ∀ r ∈ [(⟨start, x, [], none, []⟩ : Segment)], r.stop ≤ s.stop := by
    intro r hr
    obtain rfl := List.mem_singleton.mp hr
    change start + x.size ≤ s.stop
    omega
  rw [Segment.cut_eq (s := ⟨start, x ++ (m ++ y), [], none, trail⟩) rfl hx (by simp [hm])
    hstart.symm, ← List.singleton_append, List.flatMap_append, cut_before hbefore,
    List.flatMap_singleton]
  rw [Segment.cut_eq (s := ⟨s.start, m ++ y, [], _, trail⟩) rfl hm hy hstop.symm]
  rfl

/-- Neither an edit nor a segment around them has touched the characters from `start` to `stop`, and
nothing was moved from behind them. -/
structure Untouched (edits : List Edit) (p q : List Segment) (start stop : Nat) : Prop where
  before : ∀ r ∈ p, r.stop ≤ start
  behind : ∀ r ∈ q, stop ≤ r.start
  replaced : ∀ r c, (r, c) ∈ replacements edits → r.stop ≤ start ∨ stop ≤ r.start
  moved : ∀ m i, (m, i) ∈ moves edits → m.stop ≤ start

/-- What follows a part stays untouched when the part gives way. -/
theorem Untouched.rest (h : Untouched edits p q start stop) {x m : Text} (content : Text)
    (hstart : s.start = start + x.size) (hstop : s.stop = s.start + m.size)
    (hle : s.stop ≤ stop) :
    Untouched (edits ++ [.update s content])
      (p ++ [⟨start, x, [], none, []⟩, ⟨s.start, m, [], some content, []⟩]) q s.stop stop where
  before r hr := by
    rcases List.mem_append.mp hr with hr | hr
    · have := h.before r hr
      omega
    · simp only [List.mem_cons, List.not_mem_nil, or_false] at hr
      rcases hr with rfl | rfl
      · simp only [Segment.stop]
        omega
      · simp only [Segment.stop]
        omega
  behind := h.behind
  replaced r c hr := by
    rcases of_mem_replacements_update hr with hr | rfl
    · have := h.replaced r c hr
      omega
    · exact Or.inl (Nat.le_refl _)
  moved r i hr := by
    rw [moves_update] at hr
    have := h.moved r i hr
    omega

/-- A part of an untouched segment gives way to a text. -/
theorem Untouched.reaches_part (h : Untouched edits p q start stop) {code x m y : Text}
    (content : Text) (hin : History.InText code s) (hx : x ≠ []) (hm : m ≠ []) (hy : y ≠ [])
    (hstart : s.start = start + x.size) (hstop : s.stop = s.start + m.size) (hle : s.stop ≤ stop)
    (hreach : Reaches code edits (p ++ (⟨start, x ++ (m ++ y), [], none, trail⟩ :: q))) :
    Reaches code (edits ++ [.update s content])
      ((p ++ [⟨start, x, [], none, []⟩, ⟨s.start, m, [], some content, []⟩]) ++
        (⟨s.stop, y, [], none, trail⟩ :: q)) := by
  have := Text.size_pos hm
  have hbefore : ∀ i, start ≤ i → ∀ r ∈ p, r.stop ≤ i := fun i hi r hr =>
    Nat.le_trans (h.before r hr) hi
  have hbehind : ∀ i, i ≤ stop → ∀ r ∈ q, i ≤ r.start := fun i hi r hr =>
    Nat.le_trans hi (h.behind r hr)
  have hcut : ((p ++ ([(⟨start, x ++ (m ++ y), [], none, trail⟩ : Segment)] ++ q)).flatMap
      (Segment.cut s.start)).flatMap (Segment.cut s.stop) =
      (p ++ [⟨start, x, [], none, []⟩]) ++ ⟨s.start, m, [], none, []⟩ ::
        ⟨s.stop, y, [], none, trail⟩ :: q := by
    rw [cut_middle (hbefore _ (by omega)) (hbehind _ (by omega)),
      cut_middle (hbefore _ (by omega)) (hbehind _ (by omega)), List.flatMap_singleton,
      cut_part hx hm hy hstart hstop]
    simp
  have hstep := hreach.update content hin (by omega)
    (fun r c hr => not_meets (by have := h.replaced r c hr; omega))
    (fun r i hr => not_meets (by have := h.moved r i hr; omega)) hcut rfl hstop.symm
  simpa using hstep

/-- Parts of an untouched segment give way to a text one after the other. -/
theorem reaches_separators {code u t v : Text} (hcontent : content ≠ [])
    (hcode : code = u ++ (t ++ v))
    (hspans : Text.Inner u.size spans t) (h : Untouched edits p q u.size (u.size + t.size))
    (hreach : Reaches code edits (p ++ (⟨u.size, t, [], none, trail⟩ :: q))) :
    ∃ run, Reaches code (edits ++ spans.map (.update · content)) (p ++ (run ++ q)) ∧
      (∃ first, run.head? = some first ∧ first.start = u.size) ∧
      (∃ last, run.getLast? = some last ∧ last.stop = u.size + t.size) ∧
      (∀ r ∈ run, u.size ≤ r.start ∧ r.stop ≤ u.size + t.size) ∧
      visible (run.flatMap Segment.glyphs) =
        spliced u.size (spans.map fun r => (r, [.new r.start content])) t ++
          visible [.inserted trail] := by
  induction spans generalizing u t edits p with
  | nil =>
    refine ⟨[⟨u.size, t, [], none, trail⟩], by simpa using hreach, ⟨_, rfl, rfl⟩, ⟨_, rfl, rfl⟩,
      ?_, ?_⟩
    · intro r hr
      obtain rfl := List.mem_singleton.mp hr
      exact ⟨Nat.le_refl _, Nat.le_refl _⟩
    · rw [List.flatMap_singleton, visible_of_none]
      rfl
  | cons s spans ih =>
    obtain ⟨x, m, y, rfl, hx, hm, hstart, hstop, hy⟩ := hspans
    have hsize : (x ++ (m ++ y)).size = x.size + (m.size + y.size) := by
      rw [Text.size_append, Text.size_append]
    have hu : (u ++ (x ++ m)).size = s.stop := by
      rw [Text.size_append, Text.size_append]
      omega
    have hend : (u ++ (x ++ m)).size + y.size = u.size + (x ++ (m ++ y)).size := by omega
    have hin : History.InText code s := by
      rw [hcode, List.append_assoc x, ← List.append_assoc u, List.append_assoc m]
      exact inText_of_append (by rw [Text.size_append, hstart]) hstop
    have hstep := h.reaches_part content hin hx hm hy.ne_nil hstart hstop (by omega) hreach
    have hrest := h.rest content hstart hstop (by omega)
    rw [← hu] at hy hstep
    rw [← hu, ← hend] at hrest
    obtain ⟨run, hrun, -, ⟨last, hlast, hlstop⟩, hbounds, hvisible⟩ :=
      ih (by simp [hcode]) hy hrest hstep
    rw [hu] at hvisible
    refine ⟨⟨u.size, x, [], none, []⟩ :: ⟨s.start, m, [], some content, []⟩ :: run,
      by simpa using hrun, ⟨_, rfl, rfl⟩, ⟨last, ?_, by omega⟩, ?_, ?_⟩
    · simp [List.getLast?_cons, hlast]
    · intro r hr
      rcases List.mem_cons.mp hr with rfl | hr
      · simp only [Segment.stop]
        omega
      · rcases List.mem_cons.mp hr with rfl | hr
        · simp only [Segment.stop]
          omega
        · have := hbounds r hr
          omega
    · have hnew := visible_singleton (g := .new s.start content) hcontent
      rw [List.map_cons, spliced_append hstart hstop, List.flatMap_cons, List.flatMap_cons,
        visible_append, visible_append, visible_of_none, visible_of_some, hvisible, hnew]
      simp only [List.append_assoc]
      rfl

/-- The edits of a statement other than those of its separators and the move of its clause. -/
def Statement.frame (n : Nat) (s : Statement) : List Edit :=
  [.update ⟨s.span.start, s.clause.start⟩ (constWord ++ moduleConstant n ++ equals),
    .update ⟨s.clause.stop, s.span.stop⟩ (runtimeRequire s.module.name ++ [';']),
    .insert .left .back s.span.stop constWord,
    .insert .left .back s.clause.stop (equals ++ moduleConstant n ++ [';'])]

theorem Statement.edits_eq (n : Nat) (s : Statement) : s.edits n = s.frame n ++
    (separators s.bindings).map (.update · colon) ++ [.relocate s.clause s.span.stop] :=
  rfl

/-- The segment that the opening of a statement becomes. -/
def Statement.opened (n : Nat) (s : Statement) : Segment :=
  ⟨s.span.start, importWord, [], some (constWord ++ moduleConstant n ++ equals), []⟩

/-- The segment that the ending becomes. -/
def Statement.called (s : Statement) (ending : Text) : Segment :=
  ⟨s.clause.stop, ending, [], some (runtimeRequire s.module.name ++ [';']), constWord⟩

/-- A statement behind what the edits so far have reached. -/
structure Ahead (code front gap rest : Text) (x : Spelling) (s : Statement) (edits : List Edit) :
    Prop where
  code_eq : code = front ++ (gap ++ (x.text ++ rest))
  reads : s.Reads (front.size + gap.size) x
  replaced : ∀ r c, (r, c) ∈ replacements edits → r.stop ≤ front.size
  moved : ∀ m i, (m, i) ∈ moves edits → m.stop ≤ front.size

namespace Ahead

theorem clause_start (h : Ahead code front gap rest x s edits) :
    s.clause.start = s.span.start + clauseOffset := by
  rw [h.reads.clause_start, h.reads.start_eq]

theorem stop_eq (h : Ahead code front gap rest x s edits) :
    s.span.stop = s.clause.stop + x.ending.size := by
  have hsize : x.text.size = clauseOffset + (x.clause.size + x.ending.size) := by
    rw [Spelling.text, Text.size_append, Text.size_append, size_importWord]
  rw [h.reads.stop_eq, h.reads.clause_stop, h.reads.clause_start, hsize]
  omega

theorem text_eq (h : Ahead code front gap rest x s edits) :
    code = (front ++ gap) ++ (importWord ++ (x.clause ++ (x.ending ++ rest))) := by
  rw [h.code_eq, Spelling.text]
  simp only [List.append_assoc]

theorem size_before_clause (h : Ahead code front gap rest x s edits) :
    ((front ++ gap) ++ importWord).size = s.clause.start := by
  rw [Text.size_append, Text.size_append, size_importWord, h.clause_start, h.reads.start_eq]

theorem inText_opening (h : Ahead code front gap rest x s edits) :
    History.InText code ⟨s.span.start, s.clause.start⟩ := by
  rw [h.text_eq]
  refine inText_of_append ?_ ?_
  · rw [Text.size_append]
    exact h.reads.start_eq
  · rw [size_importWord]
    exact h.clause_start

theorem inText_clause (h : Ahead code front gap rest x s edits) : History.InText code s.clause := by
  rw [h.text_eq, ← List.append_assoc (front ++ gap)]
  exact inText_of_append h.size_before_clause.symm h.reads.clause_stop

theorem inText_ending (h : Ahead code front gap rest x s edits) :
    History.InText code ⟨s.clause.stop, s.span.stop⟩ := by
  rw [h.text_eq, ← List.append_assoc (front ++ gap), ← List.append_assoc _ x.clause]
  refine inText_of_append ?_ h.stop_eq
  rw [Text.size_append, h.size_before_clause]
  exact h.reads.clause_stop

theorem clause_size_pos (h : Ahead code front gap rest x s edits) :
    s.clause.start < s.clause.stop := by
  have := Text.size_pos (show x.clause ≠ [] by simp [Spelling.clause])
  have := h.reads.clause_stop
  omega

theorem ending_size_pos (h : Ahead code front gap rest x s edits) :
    s.clause.stop < s.span.stop := by
  have := Text.size_pos x.ending_ne_nil
  have := h.stop_eq
  omega

theorem before_opening (h : Ahead code front gap rest x s edits)
    (hl : ∀ r ∈ l, r.stop ≤ front.size) :
    ∀ r ∈ l ++ kept front.size gap, r.stop ≤ s.span.start := by
  have hg := h.reads.start_eq
  intro r hr
  rcases List.mem_append.mp hr with hr | hr
  · have := hl r hr
    omega
  · have := kept_bounds hr
    omega

theorem before_clause (h : Ahead code front gap rest x s edits)
    (hl : ∀ r ∈ l, r.stop ≤ front.size) :
    ∀ r ∈ l ++ kept front.size gap ++ [s.opened n], r.stop ≤ s.clause.start := by
  have hc := h.clause_start
  intro r hr
  rcases List.mem_append.mp hr with hr | hr
  · have := h.before_opening hl r hr
    omega
  · obtain rfl := List.mem_singleton.mp hr
    apply Nat.le_of_eq
    rw [Segment.stop, Statement.opened, size_importWord, hc]

theorem replaced_opening (h : Ahead code front gap rest x s edits)
    (hr : (r, c) ∈ replacements (edits ++ [.update ⟨s.span.start, s.clause.start⟩ content])) :
    r.stop ≤ s.clause.start := by
  rcases of_mem_replacements_update hr with hr | rfl
  · have := h.replaced r c hr
    have := h.reads.start_eq
    have := h.clause_start
    omega
  · exact Nat.le_refl _

/-- The opening gives way. -/
theorem reaches_opening (h : Ahead code front gap rest x s edits)
    (hreach : Reaches code edits (l ++ kept front.size (gap ++ (x.text ++ rest))))
    (hl : ∀ r ∈ l, r.stop ≤ front.size) :
    Reaches code (edits ++ [.update ⟨s.span.start, s.clause.start⟩
        (constWord ++ moduleConstant n ++ equals)])
      ((l ++ kept front.size gap ++ [s.opened n]) ++
        kept s.clause.start (x.clause ++ (x.ending ++ rest))) := by
  have hg := h.reads.start_eq
  have hc := h.clause_start
  have hoffset : clauseOffset = 7 := rfl
  have himport : importWord ≠ [] := by
    intro hn
    have := size_importWord
    rw [hn] at this
    cases this
  have hcut : ((l ++ kept front.size (gap ++ (x.text ++ rest))).flatMap
      (Segment.cut s.span.start)).flatMap (Segment.cut s.clause.start) =
      (l ++ kept front.size gap) ++ ⟨s.span.start, importWord, [], none, []⟩ ::
        kept s.clause.start (x.clause ++ (x.ending ++ rest)) := by
    have htext : x.text ++ rest = importWord ++ (x.clause ++ (x.ending ++ rest)) := by
      rw [Spelling.text]
      simp only [List.append_assoc]
    rw [List.flatMap_append, cut_before fun r hr => Nat.le_trans (hl r hr) (by omega), cut_kept hg,
      ← List.append_assoc l, List.flatMap_append,
      cut_before fun r hr => Nat.le_trans (h.before_opening hl r hr) (by omega), htext,
      cut_kept (by rw [size_importWord]; exact hc), kept_of_ne_nil himport, List.singleton_append]
  have hstep := hreach.update (constWord ++ moduleConstant n ++ equals) h.inText_opening
    (Nat.ne_of_lt (by simp only; omega))
    (fun r c hr => not_meets (Or.inl (Nat.le_trans (h.replaced r c hr) (by simp only; omega))))
    (fun m i hm => not_meets (Or.inl (Nat.le_trans (h.moved m i hm) (by simp only; omega))))
    hcut rfl (by rw [Segment.stop, size_importWord]; exact hc.symm)
  rwa [List.append_cons (l ++ kept front.size gap)] at hstep

/-- The ending gives way, behind segments that end before the clause. -/
theorem reaches_ending (h : Ahead code front gap rest x s edits) (content : Text)
    (hreach : Reaches code edits'
      (p ++ kept s.clause.start (x.clause ++ (x.ending ++ rest))))
    (hp : ∀ r ∈ p, r.stop ≤ s.clause.start)
    (hreplaced : ∀ r c, (r, c) ∈ replacements edits' → r.stop ≤ s.clause.start)
    (hmoved : ∀ m i, (m, i) ∈ moves edits' → m.stop ≤ s.clause.start) :
    Reaches code (edits' ++ [.update ⟨s.clause.stop, s.span.stop⟩ content])
      (p ++ (⟨s.clause.start, x.clause, [], none, []⟩ ::
        ⟨s.clause.stop, x.ending, [], some content, []⟩ :: kept s.span.stop rest)) := by
  have hd := h.reads.clause_stop
  have he := h.stop_eq
  have hclausePos := h.clause_size_pos
  have hendingPos := h.ending_size_pos
  have hclause : x.clause ≠ [] := by simp [Spelling.clause]
  have hcut : ((p ++ kept s.clause.start (x.clause ++ (x.ending ++ rest))).flatMap
      (Segment.cut s.clause.stop)).flatMap (Segment.cut s.span.stop) =
      (p ++ [⟨s.clause.start, x.clause, [], none, []⟩]) ++
        ⟨s.clause.stop, x.ending, [], none, []⟩ :: kept s.span.stop rest := by
    rw [List.flatMap_append, cut_before fun r hr => Nat.le_trans (hp r hr) (by omega),
      cut_kept hd, List.flatMap_append, List.flatMap_append,
      cut_before fun r hr => Nat.le_trans (hp r hr) (by omega),
      cut_before fun r hr => (by have := kept_bounds hr; omega),
      cut_kept he, kept_of_ne_nil hclause, kept_of_ne_nil x.ending_ne_nil, ← List.append_assoc,
      List.singleton_append]
  have hstep := hreach.update content h.inText_ending (Nat.ne_of_lt hendingPos)
    (fun r c hr => not_meets (Or.inl (Nat.le_trans (hreplaced r c hr) (by simp only; omega))))
    (fun m i hm => not_meets (Or.inl (Nat.le_trans (hmoved m i hm) (by simp only; omega))))
    hcut rfl he.symm
  rwa [List.append_assoc p, List.singleton_append] at hstep

/-- Where the clause and the statement start and end, segments that stand apart are not cut. -/
theorem whole (h : Ahead code front gap rest x s edits) {p run : List Segment} {d : Segment}
    (hp : ∀ r ∈ p, r.stop ≤ s.clause.start)
    (hrun : ∀ r ∈ run, s.clause.start ≤ r.start ∧ r.stop ≤ s.clause.stop)
    (hstart : d.start = s.clause.stop) (hstop : d.stop = s.span.stop)
    (hi : i = s.clause.start ∨ i = s.clause.stop ∨ i = s.span.stop) :
    (p ++ (run ++ (d :: kept s.span.stop rest))).flatMap (Segment.cut i) =
      p ++ (run ++ (d :: kept s.span.stop rest)) := by
  have hclausePos := h.clause_size_pos
  have hendingPos := h.ending_size_pos
  refine Segment.flatMap_cut_of_not_straddles fun r hr => Segment.not_straddles_iff.mpr ?_
  simp only [List.mem_append, List.mem_cons] at hr
  rcases hr with hr | hr | rfl | hr
  · have := hp r hr
    omega
  · have := hrun r hr
    omega
  · omega
  · have := kept_bounds hr
    omega

/-- The statement falls in three segments, the first and the last of which are replaced. -/
theorem frame (h : Ahead code front gap rest x s edits)
    (hreach : Reaches code edits (l ++ kept front.size (gap ++ (x.text ++ rest))))
    (hl : ∀ r ∈ l, r.stop ≤ front.size) :
    Reaches code (edits ++ s.frame n) ((l ++ kept front.size gap ++ [s.opened n]) ++
      (⟨s.clause.start, x.clause, [], none, equals ++ moduleConstant n ++ [';']⟩ ::
        s.called x.ending :: kept s.span.stop rest)) := by
  have hg := h.reads.start_eq
  have hc := h.clause_start
  have hd := h.reads.clause_stop
  have he := h.stop_eq
  have hclausePos := h.clause_size_pos
  have hendingPos := h.ending_size_pos
  have hbefore := h.before_clause (n := n) hl
  have hopened := h.reaches_opening (n := n) hreach hl
  generalize l ++ kept front.size gap ++ [s.opened n] = P at *
  have hended := h.reaches_ending (runtimeRequire s.module.name ++ [';']) hopened hbefore
    (fun r c hr => h.replaced_opening hr)
    (fun m i hm => (by have := h.moved m i (moves_update ▸ hm); omega))
  have hreplaced : ∀ i r c, s.clause.stop ≤ i → (i ≤ s.clause.stop ∨ s.span.stop ≤ i) →
      (r, c) ∈ replacements (edits ++ [.update ⟨s.span.start, s.clause.start⟩
        (constWord ++ moduleConstant n ++ equals)] ++
        [.update ⟨s.clause.stop, s.span.stop⟩ (runtimeRequire s.module.name ++ [';'])]) →
      ¬ r.Meets i i := by
    intro i r c hlo hi hr
    rcases of_mem_replacements_update hr with hr | rfl
    · have := h.replaced_opening hr
      exact not_meets (Or.inl (by omega))
    · exact not_meets (by simp only; omega)
  -- The insertions stand at the two ends of what the ending became, where nothing more is cut.
  have hrun : ∀ r ∈ [(⟨s.clause.start, x.clause, [], none, []⟩ : Segment)],
      s.clause.start ≤ r.start ∧ r.stop ≤ s.clause.stop := by
    intro r hr
    obtain rfl := List.mem_singleton.mp hr
    exact ⟨Nat.le_refl _, Nat.le_of_eq hd.symm⟩
  have hwhole : ∀ i t, (i = s.clause.start ∨ i = s.clause.stop ∨ i = s.span.stop) →
      (P ++ (⟨s.clause.start, x.clause, [], none, []⟩ :: ⟨s.clause.stop, x.ending, [],
        some (runtimeRequire s.module.name ++ [';']), t⟩ :: kept s.span.stop rest)).flatMap
        (Segment.cut i) =
      P ++ (⟨s.clause.start, x.clause, [], none, []⟩ :: ⟨s.clause.stop, x.ending, [],
        some (runtimeRequire s.module.name ++ [';']), t⟩ :: kept s.span.stop rest) :=
    fun i t hi => h.whole hbefore hrun rfl he.symm hi
  have hdend : Text.isBoundary s.clause.stop code = true := h.inText_ending.2.1
  have heend : Text.isBoundary s.span.stop code = true := h.inText_ending.2.2
  have hconst := hended.insert_left .back constWord heend (by omega)
    (fun r c hr => hreplaced _ r c (by omega) (Or.inr (Nat.le_refl _)) hr)
    ((hwhole _ _ (Or.inr (Or.inr rfl))).trans (List.append_cons P _ _)) he.symm
  rw [← List.append_cons P] at hconst
  have hassigned := hconst.insert_left .back (equals ++ moduleConstant n ++ [';']) hdend (by omega)
    (fun r c hr => hreplaced _ r c (Nat.le_refl _) (Or.inl (Nat.le_refl _))
      (replacements_insert ▸ hr))
    (hwhole _ _ (Or.inr (Or.inl rfl))) hd.symm
  rw [List.append_assoc edits, List.append_assoc edits, List.append_assoc edits] at hassigned
  exact hassigned

/-- What the frame replaces, besides what was replaced before. -/
theorem replaced_frame (h : Ahead code front gap rest x s edits)
    (hr : (r, c) ∈ replacements (edits ++ s.frame n)) :
    r.stop ≤ s.clause.start ∨ s.clause.stop ≤ r.start ∧ r.stop ≤ s.span.stop := by
  rw [replacements_append, List.mem_append] at hr
  rcases hr with hr | hr
  · have := h.replaced r c hr
    have := h.reads.start_eq
    have := h.clause_start
    omega
  · rcases mem_replacements.mp hr with ⟨_, hr | ⟨hr, _⟩⟩
    · simp only [Statement.frame, List.mem_cons, Edit.update.injEq, reduceCtorEq, List.not_mem_nil,
        or_false] at hr
      rcases hr with ⟨rfl, _⟩ | ⟨rfl, _⟩
      · exact Or.inl (Nat.le_refl _)
      · exact Or.inr ⟨Nat.le_refl _, Nat.le_refl _⟩
    · simp [Statement.frame] at hr

theorem moved_frame (h : Ahead code front gap rest x s edits)
    (hm : (m, i) ∈ moves (edits ++ s.frame n)) : m.stop ≤ front.size := by
  rw [moves_append, List.mem_append] at hm
  rcases hm with hm | hm
  · exact h.moved m i hm
  · have := (mem_moves.mp hm).2
    simp [Statement.frame] at this

/-- The separators replace parts of the clause. -/
theorem replaced_separators (h : Ahead code front gap rest x s edits)
    (hr : (r, c) ∈ replacements ((separators s.bindings).map (.update · colon))) :
    s.clause.start ≤ r.start ∧ r.stop ≤ s.clause.stop := by
  rcases mem_replacements.mp hr with ⟨_, hr | ⟨hr, _⟩⟩
  · obtain ⟨q, hq, he⟩ := List.mem_map.mp hr
    obtain ⟨rfl, _⟩ := Edit.update.inj he
    have := h.reads.inner.marks.bounds q hq
    have := h.reads.clause_stop
    omega
  · simp at hr

theorem moves_separators (spans : List Span) : moves (spans.map (.update · content)) = [] := by
  induction spans with
  | nil => rfl
  | cons s spans ih => exact ih

theorem clause_slice (h : Ahead code front gap rest x s edits) :
    code.slice s.clause.start s.clause.stop = x.clause := by
  have hslice := Text.slice_size_append (front ++ gap ++ importWord) x.clause (x.ending ++ rest)
  rw [h.size_before_clause, ← h.reads.clause_stop, List.append_assoc, List.append_assoc,
    ← h.text_eq] at hslice
  exact hslice

/-- What the edits of a statement before the move replace lies on one side of each end of the
clause. -/
theorem replaced_before_move (h : Ahead code front gap rest x s edits)
    (hr : (r, c) ∈
      replacements (edits ++ s.frame n ++ (separators s.bindings).map (.update · colon))) :
    r.stop ≤ s.clause.start ∨ (s.clause.start ≤ r.start ∧ r.stop ≤ s.clause.stop) ∨
      s.clause.stop ≤ r.start ∧ r.stop ≤ s.span.stop := by
  rw [replacements_append, List.mem_append] at hr
  rcases hr with hr | hr
  · have := h.replaced_frame hr
    omega
  · exact Or.inr (Or.inl (h.replaced_separators hr))

theorem moved_before_move (h : Ahead code front gap rest x s edits)
    (hm : (m, i) ∈ moves (edits ++ s.frame n ++ (separators s.bindings).map (.update · colon))) :
    m.stop ≤ front.size := by
  rw [moves_append, moves_separators, List.append_nil] at hm
  exact h.moved_frame hm

/-- The segments of the clause move behind the ending. -/
theorem reaches_move (h : Ahead code front gap rest x s edits) {p run : List Segment} {d : Segment}
    (hreach : Reaches code
      (edits ++ s.frame n ++ (separators s.bindings).map (.update · colon))
      (p ++ (run ++ ([d] ++ kept s.span.stop rest))))
    (hp : ∀ r ∈ p, r.stop ≤ s.clause.start)
    (hrun : ∀ r ∈ run, s.clause.start ≤ r.start ∧ r.stop ≤ s.clause.stop)
    (hfirst : ∃ first, run.head? = some first ∧ first.start = s.clause.start)
    (hlast : ∃ last, run.getLast? = some last ∧ last.stop = s.clause.stop)
    (hstart : d.start = s.clause.stop) (hstop : d.stop = s.span.stop) :
    Reaches code (edits ++ s.edits n) ((p ++ ([d] ++ run)) ++ kept s.span.stop rest) := by
  have hg := h.reads.start_eq
  have hc := h.clause_start
  have hclausePos := h.clause_size_pos
  have hendingPos := h.ending_size_pos
  obtain ⟨first, hfirst, hfstart⟩ := hfirst
  obtain ⟨last, hlast, hlstop⟩ := hlast
  have heend : Text.isBoundary s.span.stop code = true := h.inText_ending.2.2
  have hcut : (((p ++ (run ++ ([d] ++ kept s.span.stop rest))).flatMap
      (Segment.cut s.clause.start)).flatMap (Segment.cut s.clause.stop)).flatMap
      (Segment.cut s.span.stop) =
      p ++ (run ++ ([d] ++ kept s.span.stop rest)) := by
    rw [List.singleton_append, h.whole hp hrun hstart hstop (Or.inl rfl),
      h.whole hp hrun hstart hstop (Or.inr (Or.inl rfl)),
      h.whole hp hrun hstart hstop (Or.inr (Or.inr rfl))]
  have hend : kept s.span.stop rest = [] → s.span.stop = code.size := by
    intro hnil
    have hrest : rest = [] := by
      by_contra hne
      rw [kept_of_ne_nil hne] at hnil
      cases hnil
    rw [h.code_eq, hrest, List.append_nil, Text.size_append, Text.size_append, h.reads.stop_eq,
      Nat.add_assoc]
  have hmove := hreach.relocate h.inText_clause heend (by omega) (by omega)
    (by
      intro r c hr
      have := h.replaced_before_move hr
      exact ⟨not_meets (by omega), not_meets (by omega), not_meets (by omega)⟩)
    (by
      intro m i hm
      have := h.moved_before_move hm
      exact ⟨not_meets (by omega), not_meets (by omega)⟩)
    hcut hfirst hfstart hlast hlstop (by simp)
    (fun r hr => (kept_bounds (List.mem_of_mem_head? hr)).1) hend
  rw [Statement.edits_eq]
  simpa using hmove

/-- What the segments of a statement show, in the order that the move leaves. -/
theorem visible_statement (h : Ahead code front gap rest x s edits) {run : List Segment}
    (hrun : visible (run.flatMap Segment.glyphs) =
      spliced s.clause.start ((separators s.bindings).map fun r => (r, [.new r.start colon]))
        x.clause ++ visible [.inserted (equals ++ moduleConstant n ++ [';'])]) :
    visible (((l ++ kept front.size gap ++ [s.opened n]) ++
        ([s.called x.ending] ++ run)).flatMap Segment.glyphs) =
      visible (l.flatMap Segment.glyphs) ++ (olds front.size gap ++ s.glyphs code n) := by
  have hopened : visible (s.opened n).glyphs =
      [.new s.span.start (constWord ++ moduleConstant n ++ equals)] := by
    rw [Statement.opened, visible_of_some, visible_singleton (by simp [Glyph.text, constWord_ne_nil])]
    rfl
  have hcalled : visible (s.called x.ending).glyphs =
      [.new s.clause.stop (runtimeRequire s.module.name ++ [';']), .inserted constWord] := by
    rw [Statement.called, visible_of_some, visible_singleton (by simp [Glyph.text]),
      visible_singleton (by simp [Glyph.text, constWord_ne_nil])]
    rfl
  rw [visible_singleton (by simp [Glyph.text])] at hrun
  rw [Statement.glyphs, Statement.callGlyphs, Statement.patternGlyphs, h.clause_slice]
  simp only [List.flatMap_append, List.flatMap_cons, visible_append, visible_kept, hopened,
    hcalled, hrun, List.append_assoc, List.cons_append, List.nil_append]

/-- A statement becomes its two declarations. -/
theorem statement (h : Ahead code front gap rest x s edits)
    (hreach : Reaches code edits (l ++ kept front.size (gap ++ (x.text ++ rest))))
    (hl : ∀ r ∈ l, r.stop ≤ front.size) :
    ∃ l', Reaches code (edits ++ s.edits n) (l' ++ kept s.span.stop rest) ∧
      (∀ r ∈ l', r.stop ≤ s.span.stop) ∧
      visible (l'.flatMap Segment.glyphs) =
        visible (l.flatMap Segment.glyphs) ++ (olds front.size gap ++ s.glyphs code n) := by
  have hg := h.reads.start_eq
  have hc := h.clause_start
  have hclausePos := h.clause_size_pos
  have hendingPos := h.ending_size_pos
  have hsize := h.size_before_clause
  have hframe := h.frame (n := n) hreach hl
  have hbefore := h.before_clause (n := n) hl
  have hstop : (s.called x.ending).stop = s.span.stop := h.stop_eq.symm
  have hbehind : ∀ r ∈ s.called x.ending :: kept s.span.stop rest, s.clause.stop ≤ r.start := by
    intro r hr
    rcases List.mem_cons.mp hr with rfl | hr
    · exact Nat.le_refl _
    · have := kept_bounds hr
      omega
  have hcode : code = (front ++ gap ++ importWord) ++ (x.clause ++ (x.ending ++ rest)) := by
    rw [h.text_eq, List.append_assoc (front ++ gap)]
  have hclauseEnd : (front ++ gap ++ importWord).size + x.clause.size = s.clause.stop := by
    rw [hsize, h.reads.clause_stop]
  have hinner := h.reads.inner
  rw [← hsize] at hframe hbefore hinner
  have huntouched : Untouched (edits ++ s.frame n) _ _ (front ++ gap ++ importWord).size
      ((front ++ gap ++ importWord).size + x.clause.size) :=
    ⟨hbefore, by rw [hclauseEnd]; exact hbehind,
      fun r c hr => (by have := h.replaced_frame hr; omega),
      fun m i hm => (by have := h.moved_frame hm; omega)⟩
  obtain ⟨run, hrun, hfirst, hlast, hbounds, hvisible⟩ :=
    reaches_separators (show colon ≠ [] by decide +kernel) hcode hinner huntouched hframe
  rw [hclauseEnd] at hbounds hlast
  rw [hsize] at hbefore hbounds hvisible hfirst
  refine ⟨_, h.reaches_move hrun hbefore hbounds hfirst hlast rfl hstop, ?_,
    h.visible_statement hvisible⟩
  intro r hr
  rcases List.mem_append.mp hr with hr | hr
  · have := hbefore r hr
    omega
  · rcases List.mem_cons.mp hr with rfl | hr
    · omega
    · have := hbounds r hr
      omega

/-- The statements that follow are ahead of the edits of this one. -/
theorem edited (h : Ahead code front gap rest x s edits) :
    (∀ r c, (r, c) ∈ replacements (edits ++ s.edits n) → r.stop ≤ s.span.stop) ∧
      ∀ m i, (m, i) ∈ moves (edits ++ s.edits n) → m.stop ≤ s.span.stop := by
  have hg := h.reads.start_eq
  have hc := h.clause_start
  have hd := h.reads.clause_stop
  have he := h.stop_eq
  rw [Statement.edits_eq, ← List.append_assoc, ← List.append_assoc]
  constructor
  · intro r c hr
    rw [replacements_append, replacements_append, List.mem_append, List.mem_append] at hr
    rcases hr with (hr | hr) | hr
    · have := h.replaced_frame hr
      omega
    · have := h.replaced_separators hr
      omega
    · cases hr
  · intro m i hm
    rw [moves_append, moves_append, moves_separators, List.append_nil, List.mem_append] at hm
    rcases hm with hm | hm
    · have := h.moved_frame hm
      omega
    · have hm := (mem_moves.mp hm).2
      obtain ⟨rfl, _⟩ := Edit.relocate.inj (List.mem_singleton.mp hm)
      omega

end Ahead

/-- One statement after the other becomes its declarations. -/
theorem reaches_statements {code front rest : Text} (hcode : code = front ++ rest)
    (hstand : Stand front.size statements rest)
    (hreach : Reaches code edits (l ++ kept front.size rest)) (hl : ∀ r ∈ l, r.stop ≤ front.size)
    (hreplaced : ∀ r c, (r, c) ∈ replacements edits → r.stop ≤ front.size)
    (hmoved : ∀ m i, (m, i) ∈ moves edits → m.stop ≤ front.size) :
    ∃ l', Reaches code (edits ++ editsFrom n statements) l' ∧
      visible (l'.flatMap Segment.glyphs) = visible (l.flatMap Segment.glyphs) ++
        spliced front.size (glyphsFrom code n statements) rest := by
  induction statements generalizing front rest edits l n with
  | nil =>
    refine ⟨_, by simpa [editsFrom] using hreach, ?_⟩
    rw [List.flatMap_append, visible_append, visible_kept]
    rfl
  | cons s statements ih =>
    obtain ⟨gap, x, rest, rfl, hx, hrest⟩ := hstand
    have h : Ahead code front gap rest x s edits := ⟨hcode, hx, hreplaced, hmoved⟩
    obtain ⟨l₁, hreach₁, hl₁, hvisible₁⟩ := h.statement (n := n) hreach hl
    obtain ⟨hreplaced₁, hmoved₁⟩ := h.edited (n := n)
    have hsize : (front ++ (gap ++ x.text)).size = s.span.stop := by
      rw [Text.size_append, Text.size_append, hx.stop_eq, Nat.add_assoc]
    rw [← hsize] at hrest hreach₁ hl₁ hreplaced₁ hmoved₁
    obtain ⟨l', hreach', hvisible'⟩ :=
      ih (by simp [hcode]) hrest hreach₁ hl₁ hreplaced₁ hmoved₁ (n := n + 1)
    refine ⟨l', by simpa [editsFrom] using hreach', ?_⟩
    have hstop : s.span.stop = s.span.start + x.text.size := by rw [hx.start_eq, hx.stop_eq]
    rw [hvisible', hvisible₁, glyphsFrom, spliced_append hx.start_eq hstop, hsize]
    simp only [List.append_assoc]

/-- The statements as the scan gives them, in their order and with their parts inside. -/
structure Placed (code : Text) (statements : List Statement) : Prop where
  spans : Text.Marks 0 (statements.map (·.span)) code
  clauses : ∀ s ∈ statements, s.span.start ≤ s.clause.start ∧ s.clause.stop ≤ s.span.stop
  separators : ∀ s ∈ statements,
    Text.Inner s.clause.start (separators s.bindings) (code.slice s.clause.start s.clause.stop)

/-- A statement is ahead of no edits at all. -/
theorem Stand.ahead (h : Stand 0 statements code) (hs : s ∈ statements) :
    ∃ p x rest, Ahead code [] p rest x s [] := by
  obtain ⟨p, x, rest, hcode, hx⟩ := h.exists_reads hs
  exact ⟨p, x, rest, hcode, hx, by simp [replacements], by simp [moves]⟩

theorem Stand.placed (h : Stand 0 statements code) : Placed code statements where
  spans := h.marks
  clauses s hs := by
    obtain ⟨p, x, rest, hx⟩ := h.ahead hs
    have := hx.clause_start
    have := hx.stop_eq
    omega
  separators s hs := by
    obtain ⟨p, x, rest, hx⟩ := h.ahead hs
    rw [hx.clause_slice]
    exact hx.reads.inner

/-- The edits of the statements are accepted, and lead to the code with their glyphs in place. -/
theorem Stand.exists_overlay (hstand : Stand 0 statements code) (hne : statements ≠ []) :
    ∃ o l, Accepted code (editsFrom 0 statements) o ∧ o.weave.shown = some l ∧
      visible (o.weave.glyphs l) = spliced 0 (glyphsFrom code 0 statements) code := by
  have hcode : code ≠ [] := by
    rintro rfl
    obtain ⟨s, hs⟩ := List.exists_mem_of_ne_nil _ hne
    obtain ⟨p, x, rest, hcode, _⟩ := hstand.exists_reads hs
    have := (List.append_eq_nil_iff.mp (List.append_eq_nil_iff.mp hcode.symm).2).1
    exact x.text_ne_nil this
  obtain ⟨l, hreach, hvisible⟩ := reaches_statements (l := []) (n := 0)
    (List.nil_append code).symm hstand (Reaches.start hcode) (by simp) (by simp [replacements])
    (by simp [moves])
  obtain ⟨o, hrun, hshown, hglyphs⟩ := hreach.glyphs
  refine ⟨o, l, hrun, hshown, ?_⟩
  rw [hglyphs, ← List.singleton_append, visible_append, visible_append, hvisible]
  exact List.append_nil _

theorem toRequires_of_scan_nil (id : Text) (h : scan code = .ok []) :
    toRequires id code = .ok none := by
  rw [toRequires, h]
  rfl

theorem toRequires_of_scan_error {failure : Failure} (id : Text) (h : scan code = .error failure) :
    toRequires id code = .error failure := by
  rw [toRequires, h]
  rfl

/-- What a rewriting gives is the code under the edits of its statements. -/
theorem exists_trace_of_scan (id : Text) (h : scan code = .ok statements) (hne : statements ≠ []) :
    ∃ o l m, toRequires id code = .ok (some ⟨(o.weave.glyphs l).flatMap Glyph.text, m⟩) ∧
      o.sourceMap id = some m ∧ Accepted code (editsFrom 0 statements) o ∧
      o.weave.shown = some l ∧
      visible (o.weave.glyphs l) = spliced 0 (glyphsFrom code 0 statements) code := by
  obtain ⟨o, l, hrun, hshown, hvisible⟩ := (stand_of_scan h).1.exists_overlay hne
  obtain ⟨m, hmap, htrace⟩ := exists_trace (render_of_glyphs (glyphs_of_shown hshown)) id
  refine ⟨o, l, m, ?_, hmap, hrun, hshown, hvisible⟩
  unfold toRequires
  rw [h]
  cases statements with
  | nil => exact absurd rfl hne
  | cons s statements =>
    simp only [bind, Except.bind, hrun.applyAll, htrace, Except.mapError, pure, Except.pure]

/-- Only code with statements is rewritten. -/
theorem ne_nil_of_toRequires {id : Text} (h : scan code = .ok statements)
    (hout : toRequires id code = .ok (some out)) : statements ≠ [] := by
  rintro rfl
  rw [toRequires_of_scan_nil id h] at hout
  cases hout

/-- Code of which a scan gives statements is rewritten. -/
theorem toRequires_of_scan (id : Text) (h : scan code = .ok statements) (hne : statements ≠ []) :
    ∃ out, toRequires id code = .ok (some out) ∧
      out.code = Text.splice 0 (declarationsFrom code 0 statements) code := by
  obtain ⟨o, l, m, hout, -, -, -, hvisible⟩ := exists_trace_of_scan id h hne
  refine ⟨_, hout, ?_⟩
  rw [← visible_text, hvisible, spliced_text, glyphsFrom_text]

/-- Rewriting succeeds wherever the scan finds statements, and changes nothing outside of them: each
becomes its two declarations. -/
theorem rewrites_statements_in_place (id : Text) (h : scan code = .ok statements)
    (hne : statements ≠ []) :
    Placed code statements ∧ ∃ out, toRequires id code = .ok (some out) ∧
      out.code = Text.splice 0 (declarationsFrom code 0 statements) code :=
  ⟨(stand_of_scan h).1.placed, toRequires_of_scan id h hne⟩

def adjacentImports : Text :=
  ("é;import { a as b, c } from \"\x00mw-userscript:vue\";" ++
    "import { d } from \"\x00mw-userscript:d\";").toList

theorem rewrites_adjacent_statements :
    ∃ out, toRequires "b.js".toList adjacentImports = .ok (some out) ∧
      out.code = ("é;const __mw_module0 = require(\"vue\");const { a: b, c } = __mw_module0;" ++
        "const __mw_module1 = require(\"d\");const { d } = __mw_module1;").toList := by
  have hscan : scan adjacentImports =
      .ok [⟨⟨3, 50⟩, ⟨10, 23⟩, ⟨"vue".toList⟩,
          [⟨['a'], ['b'], some ⟨13, 17⟩⟩, ⟨['c'], ['c'], none⟩]⟩,
        ⟨⟨50, 87⟩, ⟨57, 62⟩, ⟨"d".toList⟩, [⟨['d'], ['d'], none⟩]⟩] := by
    decide +kernel
  obtain ⟨_, out, hout, hcode⟩ := rewrites_statements_in_place "b.js".toList hscan (by simp)
  refine ⟨out, hout, ?_⟩
  rw [hcode]
  decide +kernel

end GadgetBuild.Import
