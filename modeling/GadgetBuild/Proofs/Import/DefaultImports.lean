import Mathlib.Data.List.Infix
import GadgetBuild.Proofs.Import.Openings
import GadgetBuild.Proofs.Import.Requires

/-!
Default imports of virtual ids. The virtual module serves its default export itself, and code that
imports nothing else from virtual ids is left alone, unless the beginning of a named import stands
before one of them and runs on to it: that counts as a named import with a wrong spelling.
-/

namespace GadgetBuild.Import

open ExternalModule (IsLead)

/-- A quote at the front of a text, with a virtual id behind it. -/
def Quoted (t : Text) : Prop :=
  ∃ quote ∈ ['"', '\''], ∃ lead ∈ [virtualLead, servedLead], quote :: lead <+: t

instance (t : Text) : Decidable (Quoted t) :=
  decidable_of_iff
    ((['"', '\''].any fun quote =>
      [virtualLead, servedLead].any fun lead => (quote :: lead).isPrefixOf t) = true) <| by
    simp only [Quoted, List.any_eq_true, List.isPrefixOf_iff_prefix]

theorem quoted_iff {t : Text} : Quoted t ↔ ∃ quote lead rest,
    (quote = '"' ∨ quote = '\'') ∧ IsLead lead ∧ t = quote :: (lead ++ rest) := by
  constructor
  · rintro ⟨quote, hquote, lead, hlead, rest, rfl⟩
    exact ⟨quote, lead, rest, by simpa using hquote, by simpa [IsLead] using hlead, rfl⟩
  · rintro ⟨quote, lead, rest, hquote, hlead, rfl⟩
    exact ⟨quote, by simpa using hquote, lead, by simpa [IsLead] using hlead, rest, rfl⟩

/-- An import of the default export, up to the quote. -/
def defaultImport (name : Text) : Text :=
  importWord ++ (name ++ " from ".toList)

/-- A text ends in a default import whose quote is still to come. -/
def EndsInDefault (p : Text) : Prop :=
  ∃ name, IsName name ∧ defaultImport name <:+ p

theorem endsInDefault_iff {p : Text} : (p.tails.flatMap List.inits).any (fun name =>
    decide (IsName name) && (defaultImport name).isSuffixOf p) = true ↔ EndsInDefault p := by
  rw [List.any_eq_true]
  constructor
  · rintro ⟨name, -, h⟩
    rw [Bool.and_eq_true, decide_eq_true_eq, List.isSuffixOf_iff_suffix] at h
    exact ⟨name, h⟩
  · rintro ⟨name, hname, u, rfl⟩
    refine ⟨name, List.mem_flatMap.mpr ⟨name ++ " from ".toList, ?_, ?_⟩, ?_⟩
    · exact (List.mem_tails _ _).mpr ⟨u ++ importWord, by rw [defaultImport, List.append_assoc]⟩
    · exact (List.mem_inits _ _).mpr (List.prefix_append _ _)
    · rw [Bool.and_eq_true, decide_eq_true_eq, List.isSuffixOf_iff_suffix]
      exact ⟨hname, List.suffix_append u _⟩

instance (p : Text) : Decidable (EndsInDefault p) :=
  decidable_of_iff _ endsInDefault_iff

/-- Virtual ids are imported for their default exports only. -/
def DefaultOnly (code : Text) : Prop :=
  ∀ p t, code = p ++ t → Quoted t → EndsInDefault p

theorem defaultOnly_iff {code : Text} : (List.range (code.length + 1)).all (fun n =>
    !decide (Quoted (code.drop n)) || decide (EndsInDefault (code.take n))) = true ↔
      DefaultOnly code := by
  simp only [List.all_eq_true, List.mem_range, Bool.or_eq_true, Bool.not_eq_true',
    decide_eq_false_iff_not, decide_eq_true_eq, ← imp_iff_not_or]
  constructor
  · rintro h p t rfl ht
    have hp := h p.length (by rw [List.length_append]; omega)
    rw [List.drop_left, List.take_left] at hp
    exact hp ht
  · exact fun h n _ => h _ _ (List.take_append_drop n code).symm

instance (code : Text) : Decidable (DefaultOnly code) :=
  decidable_of_iff _ defaultOnly_iff

/-- The word `import` and a brace, and no quote and no semicolon up to a virtual id. -/
def RunsOn (code : Text) : Prop :=
  ∃ before blanks m t : Text, code = before ++ ("import".toList ++ (blanks ++ '\x7b' :: (m ++ t))) ∧
    (∀ c ∈ blanks, isBlank c = true) ∧ (∀ c ∈ m, isOpen c = true) ∧ Quoted t

/-- No statement is among default imports: before its quote a brace stands, and no name. -/
theorem DefaultOnly.statement?_eq_none (h : DefaultOnly (p ++ t)) : statement? t = none := by
  cases hs : statement? t with
  | none => rfl
  | some accepted =>
    obtain ⟨found, parts⟩ := accepted
    obtain ⟨x, rest, rfl, -, -⟩ := exists_spelling hs
    have hfrom : fromWord = " from ".toList ++ ['"'] := by decide
    have hcode : p ++ (x.text ++ rest) =
        (p ++ ("import \x7b".toList ++ (x.interior ++ ['\x7d'])) ++ " from ".toList) ++
          '"' :: (x.lead ++ (x.name ++ (statementEnd ++ rest))) := by
      rw [x.text_append, hfrom]
      simp only [List.append_assoc, List.cons_append, List.nil_append]
    obtain ⟨name, hname, u, hu⟩ := h _ _ hcode
      (quoted_iff.mpr ⟨_, _, _, Or.inl rfl, x.isLead, rfl⟩)
    rw [defaultImport, ← List.append_assoc, ← List.append_assoc] at hu
    have hend := List.append_inj_left' hu rfl
    rw [← List.dropLast_concat_getLast hname.ne_nil] at hend
    simp only [← List.append_assoc] at hend
    have hlast := List.singleton_inj.mp (List.append_inj' hend rfl).2
    exact absurd (by decide) (hname.unmarked '\x7d' (hlast ▸ List.getLast_mem hname.ne_nil))

/-- What runs on to a default import goes over its words, and so reaches the quote behind `from`. -/
theorem DefaultOnly.endsInFrom {m : Text} (h : DefaultOnly (p ++ '\x7b' :: (m ++ t)))
    (ht : Quoted t) : endsInFrom m = true := by
  have hcode : p ++ '\x7b' :: (m ++ t) = (p ++ '\x7b' :: m) ++ t := by
    simp only [List.append_assoc, List.cons_append]
  obtain ⟨name, hname, hsuffix⟩ := h _ _ hcode ht
  have hbrace : '\x7b' ∉ defaultImport name := by
    have hwords : '\x7b' ∉ importWord ∧ '\x7b' ∉ " from ".toList := by decide
    simp only [defaultImport, List.mem_append, hwords, false_or, or_false]
    exact fun hc => hname.unmarked _ hc (by decide)
  have hm : defaultImport name <:+ m := by
    rcases Text.suffix_append_cases hsuffix with hm | ⟨q, -, -, hq⟩
    · rcases List.suffix_cons_iff.mp hm with hm | hm
      · exact absurd (hm ▸ List.mem_cons_self) hbrace
      · exact hm
    · exact absurd (hq ▸ List.mem_append_right _ List.mem_cons_self) hbrace
  obtain ⟨u, rfl⟩ := hm
  have hfrom : " from ".toList = [' '] ++ ("from".toList ++ [' ']) := by decide
  rw [defaultImport, hfrom, ← List.append_assoc importWord, ← List.append_assoc u,
    ← List.append_assoc (u ++ (importWord ++ name))]
  refine endsInFrom_of_last ?_ isBlank_space
  intro c hc
  rw [List.getLast?_concat] at hc
  obtain rfl := Option.some.inj hc
  exact isWord_of_isBlank rfl

/-- An opening runs on to a virtual id. -/
theorem runsOn_of_opening? (h : opening? t = some (found, name)) (p : Text) : RunsOn (p ++ t) := by
  obtain ⟨x, rest, rfl, -⟩ := exists_opening h
  refine ⟨p, x.blanks, x.interior, x.quote :: (x.lead ++ (x.name ++ rest)), ?_, x.blanks_blank,
    x.interior_open, quoted_iff.mpr ⟨_, _, _, x.quote_eq, x.isLead, rfl⟩⟩
  rw [x.text_eq]
  simp only [List.append_assoc, List.cons_append]

/-- What runs on is an opening if it ends behind `from`. -/
theorem exists_opening_of_runsOn (h : DefaultOnly code) (hruns : RunsOn code) :
    ∃ o, o ∈ Text.occurrences opening? code := by
  obtain ⟨before, blanks, m, t, rfl, hblanks, hm, ht⟩ := hruns
  have hfrom : endsInFrom m = true :=
    DefaultOnly.endsInFrom (p := before ++ ("import".toList ++ blanks)) (by simpa using h) ht
  obtain ⟨quote, lead, rest, hquote, hlead, rfl⟩ := quoted_iff.mp ht
  let x : Opening :=
    { blanks := blanks
      interior := m
      quote := quote
      lead := lead
      name := []
      blanks_blank := hblanks
      interior_open := hm
      interior_from := hfrom
      quote_eq := hquote
      isLead := hlead
      name_plain := by simp }
  obtain ⟨⟨found, name⟩, haccept⟩ := x.opening?_isSome rest
  obtain ⟨o, ho, -, -⟩ := sound_opening?.exists_occurrence 0 before haccept
  refine ⟨o, ?_⟩
  rw [x.text_eq] at ho
  simpa [x, Text.occurrences] using ho

/-- Code without statements fails at its first opening. -/
theorem scan_of_no_statements (h : Text.occurrences statement? code = []) :
    scan code = match Text.occurrences opening? code with
      | [] => .ok []
      | o :: _ => .error (.unrecognizedImport o.value (firstLine (code.beyond o.start))) := by
  unfold scan
  rw [h]
  cases Text.occurrences opening? code with
  | nil => rfl
  | cons o os => rfl

/-- Default imports are left alone exactly if nothing before them runs on to one. If something does,
the rewriting fails. -/
theorem default_imports_pass_iff (id : Text) (h : DefaultOnly code) :
    (toRequires id code = .ok none ↔ ¬ RunsOn code) ∧ (RunsOn code →
      ∃ module line, toRequires id code = .error (.unrecognizedImport module line)) := by
  have hstatements : Text.occurrences statement? code = [] :=
    Text.occurrencesFrom_eq_nil fun p t ht _ => DefaultOnly.statement?_eq_none (ht ▸ h)
  have hscan := scan_of_no_statements hstatements
  have hfails : RunsOn code →
      ∃ module line, toRequires id code = .error (.unrecognizedImport module line) := by
    intro hruns
    obtain ⟨o, ho⟩ := exists_opening_of_runsOn h hruns
    cases hopenings : Text.occurrences opening? code with
    | nil =>
      rw [hopenings] at ho
      cases ho
    | cons first os =>
      rw [hopenings] at hscan
      exact ⟨_, _, toRequires_of_scan_error id hscan⟩
  refine ⟨⟨?_, ?_⟩, hfails⟩
  · intro hpass hruns
    obtain ⟨module, line, hfail⟩ := hfails hruns
    rw [hfail] at hpass
    cases hpass
  · intro hno
    have hopenings : Text.occurrences opening? code = [] := by
      refine Text.occurrencesFrom_eq_nil fun p t ht _ => ?_
      cases ho : opening? t with
      | none => rfl
      | some accepted => exact absurd (ht ▸ runsOn_of_opening? ho p) hno
    rw [hopenings] at hscan
    exact toRequires_of_scan_nil id hscan

/-- A default import behind other text. -/
def defaultImportBehind (text : Text) : Text :=
  text ++ "\nimport vue from \"\x00mw-userscript:vue\";\n".toList

/-- Behind a named import of an ordinary module it is left alone. -/
theorem defaultImportBehind_import_passes :
    toRequires "m.js".toList
        (defaultImportBehind "import \x7b a \x7d from \"./a.js\";".toList) = .ok none ∧
      ¬ RunsOn (defaultImportBehind "import \x7b a \x7d from \"./a.js\";".toList) := by
  have hpass : toRequires "m.js".toList
      (defaultImportBehind "import \x7b a \x7d from \"./a.js\";".toList) = .ok none :=
    toRequires_of_scan_nil _ (by decide +kernel)
  exact ⟨hpass, (default_imports_pass_iff "m.js".toList (by decide +kernel)).1.mp hpass⟩

/-- Behind a comment that shows the beginning of a named import the rewriting fails. -/
theorem defaultImportBehind_comment_fails :
    DefaultOnly (defaultImportBehind "/* import \x7b a \x7d */".toList) ∧
      toRequires "m.js".toList
        (defaultImportBehind "/* import \x7b a \x7d */".toList) ≠ .ok none := by
  have hfail : toRequires "m.js".toList (defaultImportBehind "/* import \x7b a \x7d */".toList) =
      .error (.unrecognizedImport "vue".toList "import \x7b a \x7d */".toList) :=
    toRequires_of_scan_error _ (by decide +kernel)
  refine ⟨by decide +kernel, ?_⟩
  rw [hfail]
  simp

end GadgetBuild.Import
