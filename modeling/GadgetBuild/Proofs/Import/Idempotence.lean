import GadgetBuild.Proofs.Import.Silence

/-!
Rewritten code rewritten again. Kept text is silent where it was silent, and so are the declarations.
A second scan finds something only where kept text breaks off inside a statement and the
declarations behind it happen to complete that: then a module's name begins with a semicolon.
-/

namespace GadgetBuild.Import

open ExternalModule (IsLead)

/-- No name of a binding has a quote or a brace that opens, and the module's no single quote. -/
structure Statement.Quiet (s : Statement) : Prop where
  names : ∀ b ∈ s.bindings, ∀ c ∈ b.exported ++ b.localName, c ∉ ['"', '\'', '\x7b']
  module : '\'' ∉ s.module.name

/-- Of the characters of a clause that has no such names none is a brace. -/
theorem Statement.Quiet.notMem_interior {s : Statement} (h : s.Quiet) {x : Spelling}
    (hx : s.Reads start x) : '\x7b' ∉ x.interior := by
  intro hc
  rcases mem_readClause hx.bindings hc with hc | hc | hc | ⟨b, hb, hc⟩
  · revert hc
    decide
  · revert hc
    decide
  · revert hc
    decide
  · exact h.names b hb _ (List.mem_append.mpr hc) (by decide)

/-- The pattern has its braces at its ends and nowhere else. -/
theorem Ahead.exists_pattern (h : Ahead code [] p rest x s []) (hquiet : s.Quiet) :
    ∃ inner, s.pattern code = '\x7b' :: (inner ++ ['\x7d']) ∧ '\x7b' ∉ inner ∧ '\x7d' ∉ inner := by
  have hinner : Text.Inner (s.clause.start + 1) (separators s.bindings)
      (x.interior ++ ['\x7d']) := inner_interior h.reads.bindings
  rw [← Text.map_fst_parts (separators s.bindings) fun _ => colon] at hinner
  obtain ⟨inner, hsplice, hmem⟩ := hinner.exists_splice_concat
  have hcolon : '\x7b' ∉ colon ∧ '\x7d' ∉ colon := by decide
  have hpart : ∀ c, c ∉ x.interior → c ∉ colon → c ∉ inner := by
    intro c hc hcolon hm
    rcases hmem c hm with hm | ⟨y, hy, hm⟩
    · exact hc hm
    · obtain ⟨r, -, rfl⟩ := List.mem_map.mp hy
      exact hcolon hm
  refine ⟨inner, ?_, hpart _ (hquiet.notMem_interior h.reads) hcolon.1,
    hpart _ x.interior_brace hcolon.2⟩
  rw [Statement.pattern, h.clause_slice, ← hsplice]
  exact Text.splice_append_left (p := ['\x7b']) hinner.marks

/-- What the literal of a text is without its quotes. -/
theorem notMem_escaped {name : Text} (hc : c ∉ name) (hsign : c.isAlphanum = false)
    (hbackslash : c ≠ '\\') : c ∉ name.flatMap Json.escapeChar := by
  intro h
  obtain ⟨d, hd, h⟩ := List.mem_flatMap.mp h
  exact hc (Json.eq_of_mem_escapeChar h hsign hbackslash ▸ hd)

theorem Ahead.exists_printed (h : Ahead code [] p rest x s []) (hquiet : s.Quiet) (n : Nat) :
    ∃ d : Printed, s.declarations code n = d.text ∧
      d.literal = s.module.name.flatMap Json.escapeChar := by
  obtain ⟨inner, hpattern, hopen, hclose⟩ := h.exists_pattern hquiet
  have hname : '"' ∉ s.module.name := by
    rw [h.reads.module_eq]
    exact x.name_quote
  refine ⟨⟨n, _, inner, notMem_escaped hname (by decide) (by decide),
    notMem_escaped hquiet.module (by decide) (by decide), hopen, hclose⟩, ?_, rfl⟩
  have hend : callEnd = ")".toList ++ [';'] ++ constWord := by decide
  unfold Statement.declarations runtimeRequire Json.quote Printed.text Printed.binding callLead
  rw [hpattern, hend]
  generalize "require(".toList = call
  generalize ")".toList = close
  simp only [List.append_assoc, List.cons_append, List.nil_append]

/-- What is kept before each statement, from the statement before it. -/
def gaps (code : Text) (offset : Nat) : List Statement → List (Text × Statement)
  | [] => []
  | s :: statements => (code.slice offset s.span.start, s) :: gaps code s.span.stop statements

theorem mem_of_mem_gaps (h : (g, s) ∈ gaps code offset statements) : s ∈ statements := by
  induction statements generalizing offset with
  | nil => cases h
  | cons r statements ih =>
    rcases List.mem_cons.mp h with h | h
    · obtain ⟨-, rfl⟩ := Prod.mk.inj h
      exact List.mem_cons_self
    · exact List.mem_cons_of_mem _ (ih h)

/-- No statement has the offset in it. -/
def Outside (statements : List Statement) (i : Nat) : Prop :=
  ∀ s ∈ statements, ¬ (s.span.start ≤ i ∧ i < s.span.stop)

/-- What stands outside of the statements is not recognised where it stands. -/
theorem silent_of_outside (hscan : scan (p ++ q) = .ok statements)
    (hout : Outside statements p.size) : statement? q = none ∧ opening? q = none := by
  constructor
  · cases h : statement? q with
    | none => rfl
    | some accepted =>
      obtain ⟨s, hs, hspan⟩ := exists_statement_of_statement? hscan h
      exact absurd hspan (hout s hs)
  · cases h : opening? q with
    | none => rfl
    | some accepted =>
      obtain ⟨s, hs, hspan⟩ := exists_statement_of_opening? hscan h
      exact absurd hspan (hout s hs)

/-- Where an end of the rewritten code begins. -/
inductive EndsIn (code : Text) (offset : Nat) (statements : List Statement) : Text → Prop
  | kept (p q : Text) (code_eq : code = p ++ q) (le : offset ≤ p.size)
      (outside : Outside statements p.size) : EndsIn code offset statements q
  | gap (p g rest : Text) (s : Statement) (n : Nat) (w : Text) (code_eq : code = p ++ (g ++ rest))
      (le : offset ≤ p.size) (outside : Outside statements p.size)
      (mem : ∃ before, (before ++ g, s) ∈ gaps code offset statements) :
      EndsIn code offset statements (g ++ (s.declarations code n ++ w))
  | declared (s : Statement) (n : Nat) (e w : Text) (mem : s ∈ statements)
      (suffix : e <:+ s.declarations code n) (ne_nil : e ≠ []) :
      EndsIn code offset statements (e ++ w)

theorem EndsIn.cons {s : Statement} (h : EndsIn code s.span.stop statements q)
    (hle : offset ≤ s.span.stop) : EndsIn code offset (s :: statements) q := by
  have hout : ∀ {p : Text}, s.span.stop ≤ p.size → Outside statements p.size →
      Outside (s :: statements) p.size := by
    intro p hs hrest
    exact List.forall_mem_cons.mpr ⟨by omega, hrest⟩
  cases h with
  | kept p q hcode hp hrest => exact .kept p q hcode (Nat.le_trans hle hp) (hout hp hrest)
  | gap p g rest r n w hcode hp hrest hmem =>
    obtain ⟨before, hmem⟩ := hmem
    exact .gap p g rest r n w hcode (Nat.le_trans hle hp) (hout hp hrest)
      ⟨before, List.mem_cons_of_mem _ hmem⟩
  | declared r n e w hmem hsuffix hne =>
    exact .declared r n e w (List.mem_cons_of_mem _ hmem) hsuffix hne

theorem slice_gap {front gap rest : Text} :
    (front ++ (gap ++ rest)).slice front.size (front.size + gap.size) = gap := by
  rw [← List.append_assoc]
  exact Text.slice_size_append front gap rest

/-- An end of the rewritten code begins in kept text or in declarations. -/
theorem Stand.endsIn {front t : Text} (hcode : code = front ++ t)
    (h : Stand front.size statements t) (hne : q ≠ [])
    (hq : q <:+ Text.splice front.size (declarationsFrom code n statements) t) :
    EndsIn code front.size statements q := by
  induction statements generalizing front t n with
  | nil =>
    obtain ⟨u, rfl⟩ : q <:+ t := hq
    refine .kept (front ++ u) q (by rw [hcode, List.append_assoc]) ?_ (by simp [Outside])
    rw [Text.size_append]
    omega
  | cons s statements ih =>
    have hmarks := h.marks
    obtain ⟨gap, x, rest, rfl, hx, hrest⟩ := h
    have hstart := hx.start_eq
    have hstop : s.span.stop = s.span.start + x.text.size := by rw [hx.start_eq, hx.stop_eq]
    have hfront : (front ++ gap ++ x.text).size = s.span.stop := by
      rw [Text.size_append, Text.size_append, hx.stop_eq]
    have hcode' : code = (front ++ gap ++ x.text) ++ rest := by
      rw [hcode]
      simp only [List.append_assoc]
    rw [declarationsFrom, Text.splice_append hx.start_eq hstop] at hq
    rcases Text.suffix_append_cases hq with hq | ⟨g, hg, ⟨u, rfl⟩, rfl⟩
    · rcases Text.suffix_append_cases hq with hq | ⟨e, he, hsuffix, rfl⟩
      · rw [← hfront] at hrest hq
        exact (hfront ▸ ih hcode' hrest hq).cons (by omega)
      · exact .declared s n e _ List.mem_cons_self hsuffix he
    · have hsize := Text.size_pos hg
      rw [Text.size_append] at hstart
      refine .gap (front ++ u) g (x.text ++ rest) s n _ (by rw [hcode]; simp) ?_ ?_ ⟨u, ?_⟩
      · rw [Text.size_append]
        omega
      · intro r hr
        rw [Text.size_append]
        rcases List.mem_cons.mp hr with rfl | hr
        · omega
        · have := (hrest.marks.bounds r.span (List.mem_map.mpr ⟨r, hr, rfl⟩)).1
          omega
      · rw [gaps, hx.start_eq, hcode, slice_gap]
        exact List.mem_cons_self

/-- What stands before a statement still stands before its declarations. -/
theorem Stand.exists_gap {front t : Text} (hcode : code = front ++ t)
    (h : Stand front.size statements t) (hg : (g, s) ∈ gaps code front.size statements) :
    ∃ u k w, Text.splice front.size (declarationsFrom code n statements) t =
      u ++ (g ++ (s.declarations code k ++ w)) := by
  induction statements generalizing front t n with
  | nil => cases hg
  | cons r statements ih =>
    obtain ⟨gap, x, rest, rfl, hx, hrest⟩ := h
    have hstop : r.span.stop = r.span.start + x.text.size := by rw [hx.start_eq, hx.stop_eq]
    have hfront : (front ++ gap ++ x.text).size = r.span.stop := by
      rw [Text.size_append, Text.size_append, hx.stop_eq]
    rw [declarationsFrom, Text.splice_append hx.start_eq hstop]
    rw [gaps, hx.start_eq, hcode, slice_gap, ← hcode] at hg
    rcases List.mem_cons.mp hg with hg | hg
    · obtain ⟨rfl, rfl⟩ := Prod.mk.inj hg
      exact ⟨[], n, _, rfl⟩
    · rw [← hfront] at hrest hg
      obtain ⟨u, k, w, hw⟩ := ih (n := n + 1) (by rw [hcode]; simp) hrest hg
      refine ⟨gap ++ (r.declarations code n ++ u), k, w, ?_⟩
      rw [← hfront, hw]
      simp only [List.append_assoc]

/-- A literal begins with a semicolon exactly if the name does. -/
theorem head?_escaped {name : Text} :
    (name.flatMap Json.escapeChar).head? = some ';' ↔ name.head? = some ';' := by
  cases name with
  | nil => simp
  | cons c name =>
    obtain ⟨d, t, he, hd⟩ := Json.exists_escapeChar c
    rw [List.flatMap_cons, he, List.cons_append, List.head?_cons, List.head?_cons,
      Option.some.injEq, Option.some.injEq]
    constructor
    · rintro rfl
      rcases hd with hd | hd
      · exact hd.symm
      · exact absurd hd (by decide)
    · rintro rfl
      exact (List.cons.inj he).1.symm

/-- Kept text that breaks off is completed by declarations whose literal begins with a semicolon. -/
theorem BreaksOff.exists_statement? {g : Text} (h : BreaksOff g) (d : Printed)
    (hhead : d.literal.head? = some ';') (w : Text) :
    ∃ before t accepted, g ++ (d.text ++ w) = before ++ t ∧ statement? t = some accepted := by
  obtain ⟨before, interior, lead, name, rfl, hinterior, hbrace, hlead, hquote⟩ := h
  obtain ⟨c, literal, hl⟩ := List.exists_cons_of_ne_nil (l := d.literal) (by
    intro hn
    rw [hn] at hhead
    cases hhead)
  rw [hl] at hhead
  obtain rfl := Option.some.inj hhead
  obtain ⟨t, ht⟩ := callLead_eq_cons d.constant
  let y : Spelling :=
    { interior := interior
      lead := lead
      name := name ++ callLead d.constant
      interior_ne_nil := hinterior
      interior_brace := hbrace
      isLead := hlead
      name_ne_nil := by simp [ht]
      name_quote := by
        rw [List.mem_append]
        exact not_or.mpr ⟨hquote, notMem_callLead d.constant (by decide)⟩ }
  refine ⟨before, y.text ++ (literal ++ '"' :: (callEnd ++ d.binding) ++ w), _, ?_,
    y.statement?_eq _⟩
  rw [y.text_append, Spelling.import_brace, Spelling.statementEnd_eq, Printed.text, hl]
  simp only [y, List.append_assoc, List.cons_append, List.nil_append]

/-- No end of the rewritten code is recognised, if no kept text is completed. -/
theorem EndsIn.silent (h : EndsIn code 0 statements q) (hscan : scan code = .ok statements)
    (hquiet : ∀ s ∈ statements, s.Quiet)
    (hcomplete : ∀ x ∈ gaps code 0 statements, BreaksOff x.1 → x.2.module.name.head? ≠ some ';') :
    statement? q = none ∧ opening? q = none := by
  have hprinted : ∀ s ∈ statements, ∀ n, ∃ d : Printed, s.declarations code n = d.text ∧
      d.literal = s.module.name.flatMap Json.escapeChar := by
    intro s hs n
    obtain ⟨p, x, rest, hx⟩ := (stand_of_scan hscan).1.ahead hs
    exact hx.exists_printed (hquiet s hs) n
  cases h with
  | kept p q hcode _ hout => exact silent_of_outside (hcode ▸ hscan) hout
  | gap p g rest s n w hcode _ hout hmem =>
    obtain ⟨before, hmem⟩ := hmem
    obtain ⟨d, hd, hliteral⟩ := hprinted s (mem_of_mem_gaps hmem) n
    have hsilent := silent_of_outside (hcode ▸ hscan) hout
    rw [hd]
    constructor
    · cases hs : statement? (g ++ (d.text ++ w)) with
      | none => rfl
      | some accepted =>
        rcases d.statement?_before hs with ⟨y, m, rfl⟩ | ⟨hbreaks, hhead⟩
        · rw [List.append_assoc, y.statement?_eq] at hsilent
          cases hsilent.1
        · rw [hliteral] at hhead
          exact absurd (head?_escaped.mp hhead) (hcomplete _ hmem (hbreaks.append_left before))
    · cases ho : opening? (g ++ (d.text ++ w)) with
      | none => rfl
      | some accepted =>
        obtain ⟨y, m, rfl⟩ := d.opening?_before ho
        obtain ⟨found, hfound⟩ := y.opening?_isSome (m ++ rest)
        rw [List.append_assoc, hfound] at hsilent
        cases hsilent.2
  | declared s n e w hmem hsuffix hne =>
    obtain ⟨d, hd, -⟩ := hprinted s hmem n
    exact d.silent (hd ▸ hsuffix) hne w

theorem scan_eq_nil_of_silent (h : ∀ q, q <:+ code → q ≠ [] →
    statement? q = none ∧ opening? q = none) : scan code = .ok [] := by
  have hstatements : Text.occurrences statement? code = [] :=
    Text.occurrencesFrom_eq_nil fun p q hcode hne => (h q ⟨p, hcode.symm⟩ hne).1
  have hopenings : Text.occurrences opening? code = [] :=
    Text.occurrencesFrom_eq_nil fun p q hcode hne => (h q ⟨p, hcode.symm⟩ hne).2
  unfold scan
  rw [hstatements, hopenings]
  rfl

/-- A second rewriting finds nothing, exactly if no statement from a module whose name begins with a
semicolon stands behind text that breaks off inside a statement. -/
theorem rewritten_once_iff {id : Text} (hscan : scan code = .ok statements)
    (hout : toRequires id code = .ok (some out)) (hquiet : ∀ s ∈ statements, s.Quiet) :
    (scan out.code = .ok [] ∧ ∀ id', toRequires id' out.code = .ok none) ↔
      ∀ x ∈ gaps code 0 statements, BreaksOff x.1 → x.2.module.name.head? ≠ some ';' := by
  have hstand := (stand_of_scan hscan).1
  obtain ⟨out', hout', hcode⟩ :=
    toRequires_of_scan id hscan (ne_nil_of_toRequires hscan hout)
  rw [hout] at hout'
  cases hout'
  constructor
  · rintro ⟨hnone, -⟩ ⟨g, s⟩ hg hbreaks hhead
    obtain ⟨u, k, w, hw⟩ := hstand.exists_gap (n := 0) (List.nil_append code).symm hg
    obtain ⟨p, x, rest, hx⟩ := hstand.ahead (mem_of_mem_gaps hg)
    obtain ⟨d, hd, hliteral⟩ := hx.exists_printed (hquiet s (mem_of_mem_gaps hg)) k
    obtain ⟨before, t, accepted, ht, haccept⟩ :=
      hbreaks.exists_statement? d (by rw [hliteral]; exact head?_escaped.mpr hhead) w
    have hout : out.code = (u ++ before) ++ t := by
      rw [hcode, List.append_assoc, ← ht, ← hd]
      exact hw
    rw [hout] at hnone
    obtain ⟨r, hr, -⟩ := exists_statement_of_statement? hnone haccept
    cases hr
  · intro hcomplete
    have hnone : scan out.code = .ok [] := scan_eq_nil_of_silent fun q hq hne =>
      (hstand.endsIn (List.nil_append code).symm hne (hcode ▸ hq)).silent hscan hquiet hcomplete
    refine ⟨hnone, fun id' => ?_⟩
    unfold toRequires
    rw [hnone]
    rfl

/-- A comment with a statement that breaks off, and an import behind it. -/
def importBehindComment (name : Text) : Text :=
  "/* import \x7b ; \x7d from \"\x00mw-userscript:*/ import \x7b a \x7d from \"\x00mw-userscript:".toList ++
    name ++ "\";".toList

/-- An ordinary name does not complete what breaks off. -/
theorem importBehindComment_rewritten_once :
    ∃ out, toRequires "b.js".toList (importBehindComment "vue".toList) = .ok (some out) ∧
      scan out.code = .ok [] := by
  have hscan : scan (importBehindComment "vue".toList) =
      .ok [⟨⟨40, 79⟩, ⟨47, 52⟩, ⟨"vue".toList⟩, [⟨['a'], ['a'], none⟩]⟩] := by
    decide +kernel
  obtain ⟨out, hout, -⟩ := toRequires_of_scan "b.js".toList hscan (by simp)
  have hquiet : ∀ s ∈ [(⟨⟨40, 79⟩, ⟨47, 52⟩, ⟨"vue".toList⟩, [⟨['a'], ['a'], none⟩]⟩ : Statement)],
      s.Quiet :=
    List.forall_mem_singleton.mpr ⟨by simp, by decide⟩
  refine ⟨out, hout, ((rewritten_once_iff hscan hout hquiet).mpr ?_).1⟩
  intro x hx _
  obtain rfl := List.mem_singleton.mp hx
  decide

/-- A name that begins with a semicolon completes it: rewritten code is rewritten again. -/
theorem importBehindComment_rewritten_twice : ∃ statements out,
    scan (importBehindComment ";a".toList) = .ok statements ∧ (∀ s ∈ statements, s.Quiet) ∧
      toRequires "b.js".toList (importBehindComment ";a".toList) = .ok (some out) ∧
      scan out.code ≠ .ok [] ∧ toRequires "b.js".toList out.code ≠ .ok none := by
  have hscan : scan (importBehindComment ";a".toList) =
      .ok [⟨⟨40, 78⟩, ⟨47, 52⟩, ⟨";a".toList⟩, [⟨['a'], ['a'], none⟩]⟩] := by
    decide +kernel
  obtain ⟨out, hout, hcode⟩ := toRequires_of_scan "b.js".toList hscan (by simp)
  have hagain : scan out.code = .ok [⟨⟨3, 71⟩, ⟨10, 15⟩, ⟨"*/ const __mw_module0 = require(".toList⟩,
      [⟨[';'], [';'], none⟩]⟩] := by
    rw [hcode]
    decide +kernel
  obtain ⟨out', hout', -⟩ := toRequires_of_scan "b.js".toList hagain (by simp)
  refine ⟨_, out, hscan, List.forall_mem_singleton.mpr ⟨by simp, by decide⟩, hout, ?_, ?_⟩
  · rw [hagain]
    simp
  · rw [hout']
    simp

end GadgetBuild.Import
