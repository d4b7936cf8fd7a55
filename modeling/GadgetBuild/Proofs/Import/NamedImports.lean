import GadgetBuild.Proofs.Import.Openings

/-!
Which named imports of virtual ids a scan catches. A scan that succeeds has a statement around each
of them, unless a default binding stands before the clause: the import is then neither recognised
nor taken for a failure.
-/

namespace GadgetBuild.Import

open ExternalModule (IsLead)

/-- A binding of the default export, with the blanks before it and the comma behind it. -/
structure DefaultBinding where
  blanks : Text
  name : Text
  blanks_blank : ∀ c ∈ blanks, isBlank c = true
  blanks_ne_nil : blanks ≠ []
  name_ne_nil : name ≠ []
  name_word : ∀ c ∈ name, isBlank c = false ∧ c ∉ [',', ';', '"', '\'', '\x7b', '\x7d']

def DefaultBinding.text (d : DefaultBinding) : Text :=
  d.blanks ++ d.name ++ [',']

/-- A declaration that imports names from a virtual id, up to its last quote. -/
structure NamedImport where
  defaultBinding : Option DefaultBinding
  beforeClause : Text
  specifiers : Text
  beforeFrom : Text
  beforeQuote : Text
  quote : Char
  lead : Text
  name : Text
  beforeClause_blank : ∀ c ∈ beforeClause, isBlank c = true
  specifiers_free : ∀ c ∈ specifiers, c ∉ [';', '"', '\'', '\x7b', '\x7d']
  beforeFrom_blank : ∀ c ∈ beforeFrom, isBlank c = true
  beforeQuote_blank : ∀ c ∈ beforeQuote, isBlank c = true
  quote_eq : quote = '"' ∨ quote = '\''
  isLead : IsLead lead
  name_ne_nil : name ≠ []
  name_plain : ∀ c ∈ name, isPlain c = true

namespace NamedImport

/-- What stands between the brace that opens the clause and the quote. -/
def interior (d : NamedImport) : Text :=
  d.specifiers ++ '\x7d' :: (d.beforeFrom ++ "from".toList ++ d.beforeQuote)

def text (d : NamedImport) : Text :=
  "import".toList ++ ((d.defaultBinding.map DefaultBinding.text).getD [] ++ d.beforeClause ++
    '\x7b' :: (d.interior ++ d.quote :: (d.lead ++ d.name ++ [d.quote])))

end NamedImport

/-- A scan fails, or gives a statement that has the offset in it. -/
def Caught (code : Text) (i : Nat) : Prop :=
  ∀ statements, scan code = .ok statements →
    ∃ s ∈ statements, s.span.start ≤ i ∧ i < s.span.stop

namespace NamedImport

theorem isOpen_of_blank (h : isBlank c = true) : isOpen c = true := by
  obtain ⟨h₁, h₂, h₃, _⟩ := isBlank_ne_quote h
  simp [isOpen, h₁, h₂, h₃]

theorem interior_open (d : NamedImport) : ∀ c ∈ d.interior, isOpen c = true := by
  intro c hc
  simp only [interior, List.mem_append, List.mem_cons] at hc
  rcases hc with hc | rfl | (hc | hc) | hc
  · have := d.specifiers_free c hc
    simp only [List.mem_cons, not_or] at this
    simp [isOpen, this]
  · rfl
  · exact isOpen_of_blank (d.beforeFrom_blank c hc)
  · exact List.all_eq_true.mp (by decide) c hc
  · exact isOpen_of_blank (d.beforeQuote_blank c hc)

theorem interior_from (d : NamedImport) : endsInFrom d.interior = true :=
  endsInFrom_of_brace d.beforeFrom_blank d.beforeQuote_blank d.specifiers

/-- Without a default binding, the import begins with an opening. -/
def opening (d : NamedImport) : Opening where
  blanks := d.beforeClause
  interior := d.interior
  quote := d.quote
  lead := d.lead
  name := d.name
  blanks_blank := d.beforeClause_blank
  interior_open := d.interior_open
  interior_from := d.interior_from
  quote_eq := d.quote_eq
  isLead := d.isLead
  name_plain := d.name_plain

theorem text_eq (d : NamedImport) (hd : d.defaultBinding = none) :
    d.text = d.opening.text ++ [d.quote] := by
  unfold text Opening.text
  rw [hd]
  simp only [opening, Option.map_none, Option.getD_none, List.nil_append, List.append_assoc,
    List.cons_append]

theorem caught (d : NamedImport) (hd : d.defaultBinding = none) (before after : Text) :
    Caught (before ++ (d.text ++ after)) before.size := by
  intro statements hscan
  obtain ⟨⟨found, name⟩, haccept⟩ := d.opening.opening?_isSome (d.quote :: after)
  rw [d.text_eq hd, List.append_assoc, List.singleton_append] at hscan
  exact exists_statement_of_opening? hscan haccept

/-- What stands before the clause. -/
def front (d : NamedImport) (b : DefaultBinding) : Text :=
  "import".toList ++ b.blanks ++ b.name ++ [','] ++ d.beforeClause

theorem text_eq_front (d : NamedImport) (hd : d.defaultBinding = some b) : d.text =
    d.front b ++ '\x7b' :: ((d.interior ++ d.quote :: d.lead) ++ (d.name ++ [d.quote])) := by
  have hbinding : (d.defaultBinding.map DefaultBinding.text).getD [] = b.text := by
    rw [hd, Option.map_some, Option.getD_some]
  unfold text
  rw [hbinding]
  unfold front DefaultBinding.text
  generalize "import".toList = word
  generalize d.interior = interior
  simp only [List.append_assoc, List.cons_append, List.nil_append]

theorem front_no_brace (d : NamedImport) (b : DefaultBinding) : '\x7b' ∉ d.front b := by
  have hword : '\x7b' ∉ "import".toList := by decide
  intro h
  unfold front at h
  generalize "import".toList = word at h hword
  simp only [List.mem_append, List.mem_singleton] at h
  rcases h with (((h | h) | h) | h) | h
  · exact hword h
  · exact (isBlank_ne_quote (b.blanks_blank _ h)).2.2.2 rfl
  · exact (b.name_word _ h).2 (by simp)
  · exact absurd h (by decide)
  · exact (isBlank_ne_quote (d.beforeClause_blank _ h)).2.2.2 rfl

theorem quote_ne_brace (d : NamedImport) : d.quote ≠ '\x7b' := by
  intro h
  rcases d.quote_eq with hq | hq
  all_goals
    rw [hq] at h
    revert h
    decide

theorem middle_no_brace (d : NamedImport) : '\x7b' ∉ d.interior ++ d.quote :: d.lead := by
  intro h
  simp only [interior, List.mem_append, List.mem_cons] at h
  rcases h with (h | h | (h | h) | h) | h | h
  · exact d.specifiers_free _ h (by simp)
  · revert h
    decide
  · exact (isBlank_ne_quote (d.beforeFrom_blank _ h)).2.2.2 rfl
  · revert h
    decide
  · exact (isBlank_ne_quote (d.beforeQuote_blank _ h)).2.2.2 rfl
  · exact d.quote_ne_brace h.symm
  · revert h
    rcases d.isLead with hl | hl
    all_goals
      rw [hl]
      decide

theorem exists_name_rest (d : NamedImport) (h : d.name ++ [d.quote] = k ++ '\x7b' :: rest) :
    ∃ name, rest = name ++ [d.quote] ∧ ∀ c ∈ name, isPlain c = true := by
  cases rest using List.reverseRecOn with
  | nil =>
    obtain ⟨_, hq⟩ := List.append_inj' h rfl
    exact absurd (List.cons.inj hq).1 d.quote_ne_brace
  | append_singleton rest c =>
    rw [← List.cons_append, ← List.append_assoc] at h
    obtain ⟨hname, hq⟩ := List.append_inj' h rfl
    refine ⟨rest, by rw [hq], fun e he => d.name_plain e ?_⟩
    rw [hname]
    exact List.mem_append_right _ (List.mem_cons_of_mem _ he)

/-- With a default binding, no brace follows the word `import` but one in the module's name. -/
theorem exists_rest {d : NamedImport} (hd : d.defaultBinding = some b)
    (ht : d.text = z ++ ("import".toList ++ (blanks ++ '\x7b' :: rest)))
    (hblanks : ∀ c ∈ blanks, isBlank c = true) :
    ∃ name, rest = name ++ [d.quote] ∧ ∀ c ∈ name, isPlain c = true := by
  have hsame : d.front b ++ '\x7b' :: ((d.interior ++ d.quote :: d.lead) ++ (d.name ++ [d.quote])) =
      ((z ++ "import".toList) ++ blanks) ++ '\x7b' :: rest := by
    rw [← d.text_eq_front hd, ht]
    simp only [List.append_assoc]
  have hcomma : d.front b ≠ (z ++ "import".toList) ++ blanks := by
    intro he
    have hword : "import".toList.reverse = 't' :: ['r', 'o', 'p', 'm', 'i'] := by decide
    have hreverse := congrArg List.reverse he
    unfold front at hreverse
    simp only [List.reverse_append, hword, List.reverse_cons, List.reverse_nil, List.nil_append,
      List.cons_append] at hreverse
    have hlast := Text.run_unique hreverse
      (fun c hc => d.beforeClause_blank c (List.mem_reverse.mp hc))
      (fun c hc => hblanks c (List.mem_reverse.mp hc)) (by decide) (by decide)
    exact absurd hlast.2.1 (by decide)
  rcases List.append_eq_append_iff.mp hsame with ⟨m, hw, hm⟩ | ⟨m, hu, hm⟩
  · cases m with
    | nil => exact absurd (hw.trans (List.append_nil _)).symm hcomma
    | cons c m =>
      rw [List.cons_append] at hm
      obtain ⟨_, hbehind⟩ := List.cons.inj hm
      rcases List.append_eq_append_iff.mp hbehind with ⟨k, _, hend⟩ | ⟨k, hk, hend⟩
      · exact d.exists_name_rest hend
      · cases k with
        | nil => exact d.exists_name_rest (k := []) hend.symm
        | cons e k =>
          obtain ⟨rfl, _⟩ := List.cons.inj hend
          exact absurd (hk ▸ List.mem_append_right _ List.mem_cons_self) d.middle_no_brace
  · cases m with
    | nil => exact absurd (hu.trans (List.append_nil _)) hcomma
    | cons c m =>
      obtain ⟨rfl, _⟩ := List.cons.inj hm
      exact absurd (hu ▸ List.mem_append_right _ List.mem_cons_self) (d.front_no_brace b)

theorem lead_ne_nil {lead : Text} (h : IsLead lead) : lead ≠ [] := by
  rintro rfl
  rcases h with h | h
  all_goals
    revert h
    decide

theorem notMem_of_not_plain {t : Text} (h : ∀ c ∈ t, isPlain c = true) (hq : q = '"' ∨ q = '\'') :
    q ∉ t := by
  apply notMem_of_plain h
  rcases hq with rfl | rfl
  · decide
  · decide

/-- Nothing in an import with a default binding looks like an opening. -/
theorem opening?_eq_none {d : NamedImport} (hd : d.defaultBinding = some b) (ht : d.text = z ++ t) :
    opening? t = none := by
  cases ho : opening? t with
  | none => rfl
  | some accepted =>
    obtain ⟨found, name⟩ := accepted
    obtain ⟨x, rest, rfl, _⟩ := exists_opening ho
    have htext : d.text = z ++ ("import".toList ++ (x.blanks ++ '\x7b' ::
        (x.interior ++ x.quote :: (x.lead ++ (x.name ++ rest))))) := by
      rw [ht]
      unfold Opening.text
      generalize "import".toList = word
      simp only [List.append_assoc, List.cons_append]
    obtain ⟨name, hname, hplain⟩ := exists_rest hd htext x.blanks_blank
    have hnil := Text.eq_nil_of_last hname (notMem_of_not_plain hplain x.quote_eq)
    exact absurd (List.append_eq_nil_iff.mp hnil).1 (lead_ne_nil x.isLead)

theorem statement?_eq_none {d : NamedImport} (hd : d.defaultBinding = some b)
    (ht : d.text = z ++ t) : statement? t = none := by
  cases hs : statement? t with
  | none => rfl
  | some accepted =>
    obtain ⟨found, parts⟩ := accepted
    obtain ⟨y, rest, rfl, _, _⟩ := exists_spelling hs
    have htext : d.text = z ++ ("import".toList ++ ([' '] ++ '\x7b' ::
        ((y.interior ++ "\x7d from ".toList) ++ '"' ::
          (y.lead ++ (y.name ++ (statementEnd ++ rest)))))) := by
      rw [ht]
      unfold Spelling.text Spelling.clause Spelling.ending
      rw [Opening.importWord_eq]
      have hmiddle : ∀ u : Text, '\x7d' :: (fromWord ++ u) = "\x7d from ".toList ++ '"' :: u := by
        intro u
        rw [← List.cons_append, Opening.brace_fromWord, List.append_assoc]
        rfl
      generalize "import".toList = word
      generalize statementEnd = last
      simp only [List.append_assoc, List.cons_append, List.nil_append]
      rw [hmiddle]
    obtain ⟨name, hname, hplain⟩ := exists_rest hd htext (List.forall_mem_singleton.mpr rfl)
    have hnil := Text.eq_nil_of_last hname (notMem_of_not_plain hplain (Or.inl rfl))
    exact absurd (List.append_eq_nil_iff.mp hnil).1 (lead_ne_nil y.isLead)

/-- An import with a default binding passes unnoticed. -/
theorem scan_eq_nil {d : NamedImport} (hd : d.defaultBinding = some b) : scan d.text = .ok [] := by
  have hstatements : Text.occurrences statement? d.text = [] :=
    Text.occurrencesFrom_eq_nil fun z t ht _ => statement?_eq_none hd ht
  have hopenings : Text.occurrences opening? d.text = [] :=
    Text.occurrencesFrom_eq_nil fun z t ht _ => opening?_eq_none hd ht
  unfold scan
  rw [hstatements, hopenings]
  rfl

end NamedImport

/-- A scan catches an import in whatever code it stands, exactly if it has no default binding. -/
theorem named_imports_caught_iff (d : NamedImport) :
    (∀ before after, Caught (before ++ (d.text ++ after)) before.size) ↔
      d.defaultBinding = none := by
  constructor
  · intro h
    cases hd : d.defaultBinding with
    | none => rfl
    | some b =>
      have hscan : scan ([] ++ (d.text ++ [])) = .ok [] := by
        rw [List.nil_append, List.append_nil]
        exact NamedImport.scan_eq_nil hd
      obtain ⟨s, hs, _⟩ := h [] [] [] hscan
      cases hs
  · intro hd before after
    exact d.caught hd before after

/-- A default binding and a name, from one module. -/
def mixedImport : NamedImport where
  defaultBinding := some
    { blanks := [' ']
      name := ['d']
      blanks_blank := List.forall_mem_singleton.mpr rfl
      blanks_ne_nil := by decide
      name_ne_nil := by decide
      name_word := List.forall_mem_singleton.mpr (by decide) }
  beforeClause := [' ']
  specifiers := [' ', 'a', ' ']
  beforeFrom := [' ']
  beforeQuote := [' ']
  quote := '"'
  lead := virtualLead
  name := "vue".toList
  beforeClause_blank := List.forall_mem_singleton.mpr rfl
  specifiers_free := by simp
  beforeFrom_blank := List.forall_mem_singleton.mpr rfl
  beforeQuote_blank := List.forall_mem_singleton.mpr rfl
  quote_eq := Or.inl rfl
  isLead := Or.inl rfl
  name_ne_nil := by decide
  name_plain := List.all_eq_true.mp (by decide)

theorem mixedImport_not_caught : ¬ Caught (mixedImport.text ++ [';']) 0 := by
  have hscan : scan (mixedImport.text ++ [';']) = .ok [] := by decide +kernel
  intro h
  obtain ⟨s, hs, _⟩ := h [] hscan
  cases hs

end GadgetBuild.Import
