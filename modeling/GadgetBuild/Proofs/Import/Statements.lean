import GadgetBuild.Import.Scan
import GadgetBuild.Proofs.Import.Clauses

/-!
How the statements that a scan gives are spelled, and where they stand in the code.
-/

namespace GadgetBuild.Import

open ExternalModule (IsLead)

def importWord : Text := "import ".toList

def fromWord : Text := " from \"".toList

theorem size_importWord : Text.size importWord = clauseOffset := by decide

/-- What varies in the spelling of a statement. -/
structure Spelling where
  interior : Text
  lead : Text
  name : Text
  interior_ne_nil : interior ≠ []
  interior_brace : '\x7d' ∉ interior
  isLead : IsLead lead
  name_ne_nil : name ≠ []
  name_quote : '"' ∉ name

namespace Spelling

def clause (x : Spelling) : Text :=
  '\x7b' :: x.interior ++ ['\x7d']

/-- What follows the clause. -/
def ending (x : Spelling) : Text :=
  fromWord ++ x.lead ++ x.name ++ statementEnd

def text (x : Spelling) : Text :=
  importWord ++ (x.clause ++ x.ending)

def parts (x : Spelling) : Parts :=
  ⟨x.clause, x.name⟩

theorem import_brace : "import \x7b".toList = importWord ++ ['\x7b'] := by decide

theorem brace_from : "\x7d from \"".toList = '\x7d' :: fromWord := by decide

theorem statementEnd_eq : statementEnd = ['"', ';'] := by simp [statementEnd]

theorem ending_ne_nil (x : Spelling) : x.ending ≠ [] := by
  intro h
  have := (List.append_eq_nil_iff.mp h).2
  rw [statementEnd_eq] at this
  cases this

theorem text_ne_nil (x : Spelling) : x.text ≠ [] := by
  intro h
  exact x.ending_ne_nil (List.append_eq_nil_iff.mp (List.append_eq_nil_iff.mp h).2).2

/-- The text cut where the recogniser cuts it. -/
theorem text_append (x : Spelling) (rest : Text) : x.text ++ rest =
    "import \x7b".toList ++ (x.interior ++ '\x7d' ::
      (fromWord ++ (x.lead ++ (x.name ++ (statementEnd ++ rest))))) := by
  rw [import_brace]
  unfold text clause ending
  simp only [List.append_assoc, List.cons_append, List.nil_append]

end Spelling

/-- The clause without its braces. -/
theorem Spelling.interior_eq (x : Spelling) : (x.parts.clause.drop 1).dropLast = x.interior := by
  change (x.interior ++ ['\x7d']).dropLast = _
  rw [List.dropLast_concat]

/-- A spelling is recognised at the front of a text. -/
theorem Spelling.statement?_eq (x : Spelling) (rest : Text) :
    statement? (x.text ++ rest) = some (x.text, x.parts) := by
  have hlead : ExternalModule.afterLead? (x.lead ++ (x.name ++ (statementEnd ++ rest))) =
      some (x.lead, x.name ++ (statementEnd ++ rest)) :=
    ExternalModule.afterLead?_eq_some_iff.mpr ⟨x.isLead, rfl⟩
  unfold statement?
  rw [x.text_append, Text.after?_append]
  simp only [Option.bind_eq_bind, Option.bind_some,
    Text.takeWhile_append_cons (Text.all_ne x.interior_brace) (d := '\x7d')
      (decide_eq_false (by simp)),
    Text.dropWhile_append_cons (Text.all_ne x.interior_brace) (d := '\x7d')
      (decide_eq_false (by simp)),
    x.interior_ne_nil, if_false, pure]
  rw [← List.cons_append, ← brace_from, Text.after?_append]
  simp only [Option.bind_some, hlead]
  rw [statementEnd_eq]
  simp only [List.cons_append, List.nil_append,
    Text.takeWhile_append_cons (Text.all_ne x.name_quote) (d := '"') (decide_eq_false (by simp)),
    Text.dropWhile_append_cons (Text.all_ne x.name_quote) (d := '"') (decide_eq_false (by simp)),
    x.name_ne_nil, if_false]
  change (Text.after? ['"', ';'] (['"', ';'] ++ rest)).bind _ = _
  rw [Text.after?_append, Option.bind_some]
  unfold text parts clause ending
  delta importWord fromWord
  simp only [statementEnd_eq, List.append_assoc, List.cons_append, List.nil_append]

/-- Nothing else is recognised. -/
theorem exists_spelling (h : statement? t = some (found, parts)) :
    ∃ x : Spelling, ∃ rest, t = x.text ++ rest ∧ found = x.text ∧ parts = x.parts := by
  unfold statement? at h
  simp only [Option.bind_eq_bind, Option.bind_eq_some_iff, pure] at h
  obtain ⟨t₁, hopen, h⟩ := h
  split at h
  · cases h
  rename_i hinterior
  obtain ⟨t₂, hclose, h⟩ := Option.bind_eq_some_iff.mp h
  obtain ⟨⟨lead, t₃⟩, hlead, h⟩ := Option.bind_eq_some_iff.mp h
  split at h
  · cases h
  rename_i hname
  obtain ⟨rest, hend, h⟩ := Option.bind_eq_some_iff.mp h
  obtain ⟨rfl, rfl⟩ := Prod.mk.inj (Option.some.inj h)
  obtain ⟨hlead', rfl⟩ := ExternalModule.afterLead?_eq_some_iff.mp hlead
  have hsplit := List.takeWhile_append_dropWhile (p := fun c => decide (c ≠ '\x7d')) (l := t₁)
  have hsplit' := List.takeWhile_append_dropWhile (p := fun c => decide (c ≠ '"')) (l := t₃)
  rw [Text.after?_eq_some_iff.mp hclose] at hsplit
  rw [Text.after?_eq_some_iff.mp hend] at hsplit'
  let x : Spelling :=
    { interior := t₁.takeWhile fun c => decide (c ≠ '\x7d')
      lead := lead
      name := t₃.takeWhile fun c => decide (c ≠ '"')
      interior_ne_nil := hinterior
      interior_brace := fun hc => of_decide_eq_true (Text.mem_takeWhile hc) rfl
      isLead := hlead'
      name_ne_nil := hname
      name_quote := fun hc => of_decide_eq_true (Text.mem_takeWhile hc) rfl }
  refine ⟨x, rest, ?_, ?_, rfl⟩
  · rw [x.text_append, Text.after?_eq_some_iff.mp hopen, ← hsplit, Spelling.brace_from,
      List.cons_append]
    exact congrArg (fun t => _ ++ (_ ++ '\x7d' :: (_ ++ (lead ++ t)))) hsplit'.symm
  · unfold Spelling.text Spelling.clause Spelling.ending
    delta importWord fromWord
    simp only [x, List.append_assoc, List.cons_append]

theorem sound_statement? : Text.Sound statement? where
  front {t found value} h := by
    obtain ⟨x, rest, rfl, rfl, _⟩ := exists_spelling h
    exact ⟨rest, rfl⟩
  solid {t found value} h := by
    obtain ⟨x, rest, _, rfl, _⟩ := exists_spelling h
    exact x.text_ne_nil

/-- The statement that is read where a spelling starts. -/
structure Statement.Reads (s : Statement) (start : Nat) (x : Spelling) : Prop where
  start_eq : s.span.start = start
  stop_eq : s.span.stop = start + x.text.size
  clause_start : s.clause.start = start + clauseOffset
  clause_stop : s.clause.stop = s.clause.start + x.clause.size
  module_eq : s.module = ⟨x.name⟩
  bindings : readClause (s.clause.start + 1) x.interior = .ok s.bindings

namespace Statement

theorem exists_ofOccurrence {x : Spelling} {bindings : List Binding}
    (h : readClause (start + clauseOffset + 1) x.interior = .ok bindings) :
    ∃ s, ofOccurrence ⟨start, x.text, x.parts⟩ = .ok s := by
  unfold ofOccurrence
  dsimp only
  rw [x.interior_eq, h]
  exact ⟨_, rfl⟩

theorem span_of_ofOccurrence (h : ofOccurrence o = .ok s) : s.span = ⟨o.start, o.stop⟩ := by
  unfold ofOccurrence at h
  dsimp only at h
  split at h
  · cases h
  · cases h
    rfl

theorem reads_of_ofOccurrence {x : Spelling} (h : ofOccurrence ⟨start, x.text, x.parts⟩ = .ok s) :
    s.Reads start x := by
  unfold ofOccurrence at h
  dsimp only at h
  rw [x.interior_eq] at h
  split at h
  · cases h
  · rename_i bindings hbindings
    cases h
    exact ⟨rfl, rfl, rfl, rfl, rfl, hbindings⟩

theorem Reads.inner (h : Reads s start x) :
    Text.Inner s.clause.start (separators s.bindings) x.clause :=
  inner_readClause h.bindings

end Statement

/-- The statements stand in a text that starts at an offset, one behind the other. -/
def Stand : Nat → List Statement → Text → Prop
  | _, [], _ => True
  | offset, s :: statements, t =>
    ∃ gap x rest, t = gap ++ (x.text ++ rest) ∧ s.Reads (offset + Text.size gap) x ∧
      Stand s.span.stop statements rest

theorem Stand.marks {t : Text} (h : Stand offset statements t) :
    Text.Marks offset (statements.map (·.span)) t := by
  induction statements generalizing offset t with
  | nil => trivial
  | cons s statements ih =>
    obtain ⟨gap, x, rest, rfl, hx, hrest⟩ := h
    refine ⟨gap, x.text, rest, rfl, x.text_ne_nil, hx.start_eq, ?_, ih hrest⟩
    rw [hx.start_eq, hx.stop_eq]

theorem Stand.exists_reads {t : Text} (h : Stand offset statements t) (hs : s ∈ statements) :
    ∃ p x rest, t = p ++ (x.text ++ rest) ∧ s.Reads (offset + Text.size p) x := by
  induction statements generalizing offset t with
  | nil => cases hs
  | cons r statements ih =>
    obtain ⟨gap, x, rest, rfl, hx, hrest⟩ := h
    rcases List.mem_cons.mp hs with rfl | hs
    · exact ⟨gap, x, rest, rfl, hx⟩
    · obtain ⟨p, y, rest', rfl, hy⟩ := ih hrest hs
      refine ⟨gap ++ (x.text ++ p), y, rest', by simp, ?_⟩
      rw [Text.size_append, Text.size_append, ← Nat.add_assoc, ← Nat.add_assoc, ← hx.stop_eq]
      exact hy

theorem stand_of_mapM {t : Text}
    (h : (Text.occurrencesFrom statement? offset 0 t).mapM Statement.ofOccurrence =
      .ok statements) : Stand offset statements t := by
  generalize ho : Text.occurrencesFrom statement? offset 0 t = os at h
  induction os generalizing offset t statements with
  | nil =>
    cases h
    trivial
  | cons o os ih =>
    obtain ⟨gap, rest, rfl, hstart, -, hmatch, hrest⟩ :=
      sound_statement?.occurrencesFrom_eq_cons ho
    obtain ⟨x, rest', he, hfound, hparts⟩ := exists_spelling hmatch
    rw [List.mapM_cons] at h
    cases hs : Statement.ofOccurrence o with
    | error e =>
      rw [hs] at h
      cases h
    | ok s =>
      cases hss : os.mapM Statement.ofOccurrence with
      | error e =>
        rw [hs, hss] at h
        cases h
      | ok ss =>
        rw [hs, hss] at h
        cases h
        have ho' : o = ⟨offset + gap.size, x.text, x.parts⟩ := by
          rw [← hstart, ← hfound, ← hparts]
        have hx := Statement.reads_of_ofOccurrence (ho' ▸ hs)
        refine ⟨gap, x, rest, by rw [hfound], hx, ih ?_ hss⟩
        rw [hx.stop_eq, ← hstart, ← hfound]
        exact hrest

/-- A scan that succeeds gives a statement for each place where one is spelled. -/
theorem mapM_of_scan (h : scan code = .ok statements) :
    (Text.occurrences statement? code).mapM Statement.ofOccurrence = .ok statements ∧
      ∀ o ∈ Text.occurrences opening? code, ∃ s ∈ statements, s.span.start = o.start := by
  unfold scan at h
  cases hm : (Text.occurrences statement? code).mapM Statement.ofOccurrence with
  | error e =>
    rw [hm] at h
    cases h
  | ok ss =>
    rw [hm] at h
    dsimp only [bind, Except.bind] at h
    split at h
    · cases h
    · rename_i hstray
      cases h
      refine ⟨rfl, fun o ho => ?_⟩
      have := List.find?_eq_none.mp hstray o ho
      simpa using this

/-- A scan that succeeds gives statements where they stand, and one for each opening. -/
theorem stand_of_scan (h : scan code = .ok statements) : Stand 0 statements code ∧
    ∀ o ∈ Text.occurrences opening? code, ∃ s ∈ statements, s.span.start = o.start :=
  ⟨stand_of_mapM (mapM_of_scan h).1, (mapM_of_scan h).2⟩

theorem exists_of_mapM {os : List (Text.Occurrence Parts)}
    (h : os.mapM Statement.ofOccurrence = .ok statements) (ho : o ∈ os) :
    ∃ s ∈ statements, s.span = ⟨o.start, o.stop⟩ := by
  induction os generalizing statements with
  | nil => cases ho
  | cons first os ih =>
    rw [List.mapM_cons] at h
    cases hs : Statement.ofOccurrence first with
    | error e =>
      rw [hs] at h
      cases h
    | ok s =>
      cases hss : os.mapM Statement.ofOccurrence with
      | error e =>
        rw [hs, hss] at h
        cases h
      | ok ss =>
        rw [hs, hss] at h
        cases h
        rcases List.mem_cons.mp ho with rfl | ho
        · exact ⟨s, List.mem_cons_self, Statement.span_of_ofOccurrence hs⟩
        · obtain ⟨r, hr, hspan⟩ := ih hss ho
          exact ⟨r, List.mem_cons_of_mem _ hr, hspan⟩

/-- The statements cover each place where one is spelled. -/
theorem exists_statement_of_statement? (hscan : scan (before ++ t) = .ok statements)
    (h : statement? t = some (found, parts)) :
    ∃ s ∈ statements, s.span.start ≤ before.size ∧ before.size < s.span.stop := by
  obtain ⟨o, ho, hstart, hstop⟩ := sound_statement?.exists_occurrence 0 before h
  obtain ⟨s, hs, hspan⟩ := exists_of_mapM (mapM_of_scan hscan).1 ho
  rw [Nat.zero_add] at hstart hstop
  exact ⟨s, hs, by rw [hspan]; exact ⟨hstart, hstop⟩⟩

/-- Statements are what there is of the exact shape in code: they follow each other, each is spelled
in that shape, and whatever else is spelled so begins inside of one of them, which is the first that
it meets. -/
structure Finds (code : Text) (statements : List Statement) : Prop where
  ordered : statements.Pairwise fun s r => s.span.start < r.span.start ∧ s.span.stop ≤ r.span.start
  spelled : ∀ s ∈ statements, ∃ before x rest,
    code = before ++ (x.text ++ rest) ∧ s.Reads before.size x
  complete : ∀ before (x : Spelling) rest, code = before ++ (x.text ++ rest) →
    ∃ earlier s later, statements = earlier ++ s :: later ∧
      (∀ r ∈ earlier, r.span.stop ≤ before.size) ∧
      s.span.start ≤ before.size ∧ before.size < s.span.stop

theorem Stand.ordered {t : Text} (h : Stand offset statements t) :
    statements.Pairwise fun s r => s.span.start < r.span.start ∧ s.span.stop ≤ r.span.start := by
  have hordered := List.pairwise_map.mp h.marks.ordered
  refine hordered.imp_of_mem fun {s r} hs _ hle => ⟨?_, hle⟩
  have := (h.marks.bounds s.span (List.mem_map.mpr ⟨s, hs, rfl⟩)).2.1
  omega

/-- A scan that succeeds finds exactly the statements of the code. -/
theorem scan_finds_statements (h : scan code = .ok statements) : Finds code statements := by
  have hstand : Stand 0 statements code := (stand_of_scan h).1
  constructor
  case ordered => exact hstand.ordered
  case spelled =>
    intro s hs
    obtain ⟨before, x, rest, hcode, hx⟩ := hstand.exists_reads hs
    rw [Nat.zero_add] at hx
    exact ⟨before, x, rest, hcode, hx⟩
  case complete =>
    intro before x rest hcode
    obtain ⟨s, hs, hstart, hstop⟩ :=
      exists_statement_of_statement? (hcode ▸ h) (x.statement?_eq rest)
    obtain ⟨earlier, later, hsplit⟩ := List.append_of_mem hs
    refine ⟨earlier, s, later, hsplit, fun r hr => ?_, hstart, hstop⟩
    -- The others before it stop where it starts, or earlier.
    have hordered := hstand.ordered
    rw [hsplit] at hordered
    have := ((List.pairwise_append.mp hordered).2.2 r hr s List.mem_cons_self).2
    omega

/-- A module name that goes on to what another statement could begin with, and a second import. -/
def importInName : Text :=
  ("import \x7b a \x7d from \"\x00mw-userscript:v import \x7b q\"; \x7d from " ++
    "\"\x00mw-userscript:vue\";import \x7b b as c \x7d from \"/@id/__x00__mw-userscript:d\";").toList

theorem importInName_found : Finds importInName
    [⟨⟨0, 48⟩, ⟨7, 12⟩, ⟨"v import \x7b q".toList⟩, [⟨['a'], ['a'], none⟩]⟩,
      ⟨⟨77, 130⟩, ⟨84, 94⟩, ⟨['d']⟩, [⟨['b'], ['c'], some ⟨87, 91⟩⟩]⟩] :=
  scan_finds_statements (by decide +kernel)

end GadgetBuild.Import
