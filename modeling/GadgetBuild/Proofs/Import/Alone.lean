import GadgetBuild.Proofs.Import.Openings
import GadgetBuild.Proofs.Import.Requires
import GadgetBuild.Proofs.Json.Literals

/-!
Code that is one import of names. A scan reads it as one statement, and it is rewritten so that the
runtime is asked for the module of that name.
-/

namespace GadgetBuild.Import

open ExternalModule (IsLead)

/-- Either character between which the source of an import stands. -/
def isQuote (c : Char) : Bool :=
  c = '"' || c = '\''

theorem countP_isQuote_eq_zero {t : Text} (hdouble : '"' ∉ t) (hsingle : '\'' ∉ t) :
    t.countP isQuote = 0 := by
  refine List.countP_eq_zero.mpr fun c hc hq => ?_
  simp only [isQuote, Bool.or_eq_true, decide_eq_true_eq] at hq
  rcases hq with rfl | rfl
  · exact hdouble hc
  · exact hsingle hc

theorem one_lt_length {lead : Text} (h : IsLead lead) : 1 < lead.length := by
  rcases h with rfl | rfl
  · decide
  · decide

namespace Opening

theorem isQuote_quote (z : Opening) : isQuote z.quote = true := by
  rcases z.quote_eq with h | h
  · rw [h]
    rfl
  · rw [h]
    rfl

theorem countP_text_pos (z : Opening) : 0 < z.text.countP isQuote := by
  have hquote : z.quote ∈ z.text := by
    unfold text
    simp
  exact List.countP_pos_iff.mpr ⟨z.quote, hquote, z.isQuote_quote⟩

end Opening

/-- A statement without quotes but those around its source, and without a semicolon in its clause. -/
structure Spelling.Unquoted (x : Spelling) : Prop where
  interior_open : ∀ c ∈ x.interior, isOpen c = true
  name_quote : '\'' ∉ x.name

namespace Spelling.Unquoted

variable {x : Spelling}

theorem countP_isQuote (h : x.Unquoted) : x.text.countP isQuote = 2 := by
  have hinterior : x.interior.countP isQuote = 0 :=
    countP_isQuote_eq_zero (fun hc => absurd (h.interior_open _ hc) (by decide))
      (fun hc => absurd (h.interior_open _ hc) (by decide))
  have hlead : x.lead.countP isQuote = 0 :=
    countP_isQuote_eq_zero (notMem_of_plain (plain_of_isLead x.isLead) (by decide))
      (notMem_of_plain (plain_of_isLead x.isLead) (by decide))
  have hname : x.name.countP isQuote = 0 := countP_isQuote_eq_zero x.name_quote h.name_quote
  have himport : importWord.countP isQuote = 0 := by decide
  have hfrom : fromWord.countP isQuote = 1 := by decide
  simp only [Spelling.text, clause, ending, statementEnd_eq, List.countP_append, List.countP_cons,
    List.cons_append, himport, hfrom, hinterior, hname, hlead, List.countP_nil]
  decide

/-- The last quote, and what follows it. -/
theorem text_end (x : Spelling) : x.text =
    importWord ++ (x.clause ++ (fromWord ++ x.lead ++ x.name)) ++ '"' :: [';'] := by
  rw [Spelling.text, ending, statementEnd_eq]
  simp only [List.append_assoc]

/-- Two openings do not fit: the quote of the second is the last one, and no lead follows that. -/
theorem not_two_openings (h : x.Unquoted) {y z : Opening} :
    x.text ≠ z.text ++ p ++ (y.text ++ r) := by
  intro htext
  have hsplit : x.text = z.text ++ p ++ ("import".toList ++ y.blanks ++ '\x7b' :: y.interior) ++
      y.quote :: (y.lead ++ y.name ++ r) := by
    rw [htext, y.text_eq]
    simp only [List.append_assoc, List.cons_append]
  have hbehind : (y.lead ++ y.name ++ r).countP isQuote = 0 := by
    have hcount := h.countP_isQuote
    rw [hsplit, List.countP_append, List.countP_append, List.countP_append,
      List.countP_cons_of_pos y.isQuote_quote] at hcount
    have := z.countP_text_pos
    omega
  have hlast : y.lead ++ y.name ++ r = [';'] := by
    have hnone : ∀ c ∈ y.lead ++ y.name ++ r, (!isQuote c) = true := by
      simpa using List.countP_eq_zero.mp hbehind
    exact Text.last_run_unique (hsplit.symm.trans (text_end x)) hnone
      (List.forall_mem_singleton.mpr rfl)
      (by rw [y.isQuote_quote, Bool.not_true]) (by decide)
  have hlength := congrArg List.length hlast
  rw [List.length_append, List.length_append, List.length_singleton] at hlength
  have := one_lt_length y.isLead
  omega

theorem openings_start (h : x.Unquoted) : ∀ o ∈ Text.occurrences opening? x.text, o.start = 0 := by
  obtain ⟨⟨found, name⟩, haccept⟩ :=
    (x.opening h.interior_open).opening?_isSome (x.name ++ statementEnd)
  rw [← x.text_opening] at haccept
  obtain ⟨z, rest, htext, rfl⟩ := exists_opening haccept
  have hrest : Text.occurrencesFrom opening? (0 + z.text.size) 0 rest = [] := by
    refine Text.occurrencesFrom_eq_nil fun p q hq _ => ?_
    cases hy : opening? q with
    | none => rfl
    | some accepted =>
      obtain ⟨found, name⟩ := accepted
      obtain ⟨y, r, rfl, -⟩ := exists_opening hy
      rw [hq, ← List.append_assoc] at htext
      exact absurd htext h.not_two_openings
  intro o ho
  rw [Text.occurrences, htext, sound_opening?.occurrencesFrom_some (htext ▸ haccept), hrest,
    List.mem_singleton] at ho
  rw [ho]

/-- A scan reads the statement and nothing else. -/
theorem exists_scan (h : x.Unquoted)
    (hread : readClause (clauseOffset + 1) x.interior = .ok bindings) :
    ∃ s, scan x.text = .ok [s] ∧ s.Reads 0 x := by
  have haccept := x.statement?_eq []
  have hoccurrences : Text.occurrences statement? (x.text ++ []) = [⟨0, x.text, x.parts⟩] :=
    sound_statement?.occurrencesFrom_some haccept
  rw [List.append_nil] at hoccurrences
  rw [← Nat.zero_add clauseOffset] at hread
  obtain ⟨s, hs⟩ := Statement.exists_ofOccurrence hread
  have hreads := Statement.reads_of_ofOccurrence hs
  have hm : (Text.occurrences statement? x.text).mapM Statement.ofOccurrence = .ok [s] := by
    rw [hoccurrences, List.mapM_cons, hs]
    rfl
  have hstray : ((Text.occurrences opening? x.text).find? fun o =>
      [s].all (·.span.start ≠ o.start)) = none := by
    refine List.find?_eq_none.mpr fun o ho => ?_
    simp [hreads.start_eq, h.openings_start o ho]
  refine ⟨s, ?_, hreads⟩
  unfold scan
  rw [hm]
  dsimp only [bind, Except.bind]
  rw [hstray]
  rfl

/-- The code becomes two declarations. -/
theorem exists_toRequires (h : x.Unquoted) (id : Text)
    (hread : readClause (clauseOffset + 1) x.interior = .ok bindings) :
    ∃ out, ∃ s : Statement, toRequires id x.text = .ok (some out) ∧ s.Reads 0 x ∧
      out.code = s.declarations x.text 0 := by
  obtain ⟨s, hscan, hreads⟩ := h.exists_scan hread
  obtain ⟨out, hout, hcode⟩ := toRequires_of_scan id hscan (by simp)
  refine ⟨out, s, hout, hreads, ?_⟩
  have hsplice : Text.splice 0 [(s.span, s.declarations x.text 0)] ([] ++ (x.text ++ [])) =
      [] ++ (s.declarations x.text 0 ++ Text.splice s.span.stop [] []) :=
    Text.splice_append hreads.start_eq (by rw [hreads.stop_eq, hreads.start_eq])
  rw [List.append_nil] at hsplice
  rw [hcode]
  exact hsplice.trans (List.append_nil _)

end Spelling.Unquoted

/-- The module that the first declaration of rewritten code asks the runtime for. -/
def required? (code : Text) : Option Text := do
  let t ← Text.after? (constWord ++ moduleConstant 0 ++ equals ++ "require(".toList) code
  let (name, t) ← Json.literal? t
  let _ ← Text.after? ");".toList t
  return name

theorem required?_declarations (code : Text) (s : Statement) :
    required? (s.declarations code 0) = some s.module.name := by
  have hend : ")".toList ++ [';'] = ");".toList := by decide
  have hcode : s.declarations code 0 = (constWord ++ moduleConstant 0 ++ equals ++
      "require(".toList) ++ (Json.quote s.module.name ++ (");".toList ++
        (constWord ++ s.pattern code ++ equals ++ moduleConstant 0 ++ [';']))) := by
    unfold Statement.declarations runtimeRequire
    rw [← hend]
    generalize "require(".toList = call
    generalize ")".toList = close
    generalize moduleConstant 0 = constant
    simp only [List.append_assoc]
  rw [required?, hcode, Text.after?_append]
  simp only [Option.bind_eq_bind, Option.bind_some, Json.literal?_quote, Text.after?_append, pure]

namespace Clause

/-- An import of the names of a clause, as it is spelled in bundled code. -/
def importFrom (k : Clause) (id : Text) : Text :=
  "import \x7b".toList ++ k.interior ++ "\x7d from \"".toList ++ id ++ statementEnd

/-- From an external module, under either spelling of its id. -/
def spelling (k : Clause) (hlead : IsLead lead) (hne : name ≠ []) (hname : '"' ∉ name) :
    Spelling where
  interior := k.interior
  lead := lead
  name := name
  interior_ne_nil := k.interior_ne_nil
  interior_brace := k.notMem_interior (by decide) (by decide)
  isLead := hlead
  name_ne_nil := hne
  name_quote := hname

theorem text_spelling (k : Clause) (hlead : IsLead lead) (hne : name ≠ []) (hname : '"' ∉ name) :
    (k.spelling hlead hne hname).text = k.importFrom (lead ++ name) := by
  unfold importFrom
  rw [Spelling.text, Spelling.clause, Spelling.ending, Spelling.import_brace, Spelling.brace_from]
  simp only [spelling, List.append_assoc, List.cons_append, List.nil_append]

/-- What has a meaning outside of the clause does not stand in it. -/
theorem isOpen_of_mem_interior (k : Clause) (hc : c ∈ k.interior) : isOpen c = true := by
  by_cases hm : c ∈ clauseMarks
  · rw [k.eq_comma_of_mem_interior hc hm]
    rfl
  · exact isOpen_of_unmarked hm

/-- Every clause imported from a module becomes a call for that module. -/
theorem exists_required (k : Clause) (id : Text) (hlead : IsLead lead) (hne : name ≠ [])
    (hdouble : '"' ∉ name) (hsingle : '\'' ∉ name) :
    ∃ out, toRequires id (k.importFrom (lead ++ name)) = .ok (some out) ∧
      required? out.code = some name := by
  have hunquoted : (k.spelling hlead hne hdouble).Unquoted :=
    ⟨fun _ => k.isOpen_of_mem_interior, hsingle⟩
  obtain ⟨bindings, hread⟩ := k.exists_readClause (clauseOffset + 1)
  obtain ⟨out, s, hout, hreads, hcode⟩ := hunquoted.exists_toRequires id hread
  refine ⟨out, ?_, ?_⟩
  · rw [← k.text_spelling hlead hne hdouble, hout]
  · rw [hcode, required?_declarations, hreads.module_eq]
    rfl

end Clause

end GadgetBuild.Import
