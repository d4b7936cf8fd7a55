import GadgetBuild.Proofs.Import.Openings
import GadgetBuild.Proofs.Import.Requires
import GadgetBuild.Proofs.Import.Specifiers
import GadgetBuild.Proofs.Json.Literals

/-!
What the recognisers make of printed declarations. Neither accepts anything that begins inside of
them. What begins in the text before them and is accepted ends there as well, with one exception: a
spelling that breaks off in the name of a module goes on to the literal, and ends there if that
begins with a semicolon.
-/

namespace GadgetBuild.Import

open ExternalModule (IsLead)

/-- The first declaration up to the literal. -/
def callLead (n : Nat) : Text :=
  constWord ++ moduleConstant n ++ equals ++ "require(".toList

/-- From the literal to the pattern of the second declaration. -/
def callEnd : Text := ");const ".toList

theorem notMem_callLead (n : Nat) (hc : c ∈ clauseMarks) : c ∉ callLead n := by
  have hmarks : (clauseMarks.all fun d => decide (d ∉ constWord ∧ d ∉ "__mw_module".toList ∧
      d ∉ equals ∧ d ∉ "require(".toList ∧ d.isDigit = false)) = true := by
    decide
  obtain ⟨hconst, hmodule, hequals, hcall, hdigit⟩ :=
    of_decide_eq_true (List.all_eq_true.mp hmarks c hc)
  have hnumber : c ∉ Text.ofNat n := Text.notMem_ofNat hdigit n
  unfold callLead moduleConstant
  generalize "__mw_module".toList = name at hmodule ⊢
  generalize "require(".toList = call at hcall ⊢
  simp only [List.mem_append]
  rintro (((h | h | h) | h) | h)
  · exact hconst h
  · exact hmodule h
  · exact hnumber h
  · exact hequals h
  · exact hcall h

theorem callLead_eq_cons (n : Nat) : ∃ t, callLead n = 'c' :: 'o' :: t := by
  have hword : constWord = 'c' :: 'o' :: "nst ".toList := by decide
  simp only [callLead, hword, List.append_assoc, List.cons_append]
  exact ⟨_, rfl⟩

/-- A text that goes on to the literal does not end in the word `from`. -/
theorem endsInFrom_callLead (t : Text) (n : Nat) : endsInFrom (t ++ callLead n) = false := by
  have hcall : "require(".toList = "require".toList ++ ['('] := by decide
  have hword : "from".toList.reverse = ['m', 'o', 'r', 'f'] := by decide
  have hblank : isBlank '(' = false := by decide
  rw [endsInFrom, callLead, hcall, hword]
  simp [hblank, Text.after?, List.isPrefixOf?]

/-- What varies in the declarations. -/
structure Printed where
  constant : Nat
  literal : Text
  inner : Text
  literal_double : '"' ∉ literal
  literal_single : '\'' ∉ literal
  inner_open : '\x7b' ∉ inner
  inner_close : '\x7d' ∉ inner

namespace Printed

/-- From the pattern on. -/
def binding (d : Printed) : Text :=
  '\x7b' :: (d.inner ++ '\x7d' :: (equals ++ moduleConstant d.constant ++ [';']))

def text (d : Printed) : Text :=
  callLead d.constant ++ '"' :: (d.literal ++ '"' :: (callEnd ++ d.binding))

end Printed

/-- No lead stands behind the literal. -/
theorem lead_append_ne (h : IsLead lead) (u w : Text) : lead ++ u ≠ callEnd ++ w := by
  have hend : callEnd = ')' :: ";const ".toList := by decide
  have hvirtual : virtualLead = '\x00' :: "mw-userscript:".toList := by decide
  have hserved : servedLead = '/' :: "@id/__x00__mw-userscript:".toList := by decide
  intro he
  rw [hend, List.cons_append] at he
  rcases h with rfl | rfl
  · rw [hvirtual, List.cons_append] at he
    exact absurd (List.cons.inj he).1 (by decide)
  · rw [hserved, List.cons_append] at he
    exact absurd (List.cons.inj he).1 (by decide)

/-- The declarations do not go on with what a spelling has between the clause and the name. -/
theorem apart_lead (h : IsLead lead) (n : Nat) (w : Text) :
    Text.Apart (fromWord ++ lead) (callLead n ++ w) := by
  have htails : ∀ x ∈ [fromWord ++ virtualLead, fromWord ++ servedLead],
      (x.tails.all fun m => m.isEmpty || !(m.take 2).isPrefixOf ['c', 'o']) = true := by
    decide
  have hx : fromWord ++ lead ∈ [fromWord ++ virtualLead, fromWord ++ servedLead] := by
    rcases h with rfl | rfl
    · exact List.mem_cons_self
    · exact List.mem_cons_of_mem _ List.mem_cons_self
  intro m hm ht
  have hall := List.all_eq_true.mp (htails _ hx) m ((List.mem_tails m _).mpr hm)
  obtain ⟨t, hlead⟩ := callLead_eq_cons n
  have htake : m.take 2 <+: ['c', 'o'] := by
    have := ht.take 2
    rwa [hlead] at this
  simpa [List.isPrefixOf_iff_prefix.mpr htake] using hall

/-- A text ends in a statement that breaks off in the name of the module. -/
def BreaksOff (t : Text) : Prop :=
  ∃ before interior lead name,
    t = before ++ (importWord ++ '\x7b' :: (interior ++ '\x7d' :: (fromWord ++ (lead ++ name)))) ∧
      interior ≠ [] ∧ '\x7d' ∉ interior ∧ IsLead lead ∧ '"' ∉ name

theorem BreaksOff.append_left (h : BreaksOff t) (before : Text) : BreaksOff (before ++ t) := by
  obtain ⟨first, interior, lead, name, rfl, h⟩ := h
  exact ⟨before ++ first, interior, lead, name, (List.append_assoc _ _ _).symm, h⟩

/-- What both recognisers look for. -/
def Leads (t : Text) : Prop :=
  ∃ blanks rest, (∀ c ∈ blanks, isBlank c = true) ∧
    t = ("import".toList ++ blanks ++ ['\x7b']) ++ rest

theorem leads_of_statement? (h : statement? t = some (found, parts)) : Leads t := by
  obtain ⟨y, rest, rfl, -, -⟩ := exists_spelling h
  rw [y.text_append, Spelling.import_brace, Opening.importWord_eq]
  exact ⟨[' '], _, List.forall_mem_singleton.mpr rfl, rfl⟩

theorem leads_of_opening? (h : opening? t = some (found, name)) : Leads t := by
  obtain ⟨y, rest, rfl, -⟩ := exists_opening h
  refine ⟨y.blanks, y.interior ++ y.quote :: (y.lead ++ y.name ++ rest), y.blanks_blank, ?_⟩
  rw [Opening.text_eq]
  generalize "import".toList = word
  simp only [List.append_assoc, List.cons_append, List.nil_append]

theorem silent_of_not_leads (h : ¬ Leads t) : statement? t = none ∧ opening? t = none := by
  constructor
  · cases hs : statement? t with
    | none => rfl
    | some accepted => exact absurd (leads_of_statement? hs) h
  · cases ho : opening? t with
    | none => rfl
    | some accepted => exact absurd (leads_of_opening? ho) h

theorem apart_leads (hblanks : ∀ c ∈ blanks, isBlank c = true) (hc : isBlank c = false)
    (hword : c ∉ "import".toList) (hbrace : c ≠ '\x7b') (w : Text) :
    Text.Apart ("import".toList ++ blanks ++ ['\x7b']) (c :: w) := by
  apply Text.apart_of_notMem
  rw [List.mem_append, List.mem_append, List.mem_singleton]
  rintro ((h | h) | h)
  · exact hword h
  · rw [hblanks c h] at hc
    cases hc
  · exact hbrace h

/-- The brace stands before a character that ends what the recognisers look for. -/
theorem Leads.mem_brace {e : Text} (h : Leads (e ++ c :: w)) (hc : isBlank c = false)
    (hword : c ∉ "import".toList) (hbrace : c ≠ '\x7b') : '\x7b' ∈ e := by
  obtain ⟨blanks, rest, hblanks, he⟩ := h
  obtain ⟨m, rfl, -⟩ := (apart_leads hblanks hc hword hbrace w).split he
  simp

/-- Before a character that ends what the recognisers look for, a brace is missing. -/
theorem silent_of_stop {e : Text} (he : '\x7b' ∉ e) (hc : c ∈ ['"', ';', '\x7d']) (t : Text) :
    statement? (e ++ c :: t) = none ∧ opening? (e ++ c :: t) = none := by
  have hstop : (['"', ';', '\x7d'].all fun d =>
      decide (isBlank d = false ∧ d ∉ "import".toList ∧ d ≠ '\x7b')) = true := by
    decide
  obtain ⟨hblank, hword, hbrace⟩ := of_decide_eq_true (List.all_eq_true.mp hstop c hc)
  exact silent_of_not_leads fun h => he (h.mem_brace hblank hword hbrace)

theorem Leads.head {e : Text} (h : Leads (c :: e)) : c = 'i' := by
  have hword : "import".toList = 'i' :: "mport".toList := by decide
  obtain ⟨blanks, rest, -, he⟩ := h
  rw [hword] at he
  exact (List.cons.inj he).1

namespace Printed

theorem text_eq_cons (d : Printed) : ∃ t, d.text = 'c' :: 'o' :: t := by
  obtain ⟨t, ht⟩ := callLead_eq_cons d.constant
  rw [text, ht]
  exact ⟨_, rfl⟩

/-- The clause of a statement does not end in the declarations, or not before a lead. -/
theorem not_ended (d : Printed) {e interior u w : Text} (he : '"' ∉ e) (hi : '\x7d' ∉ interior)
    (hlead : IsLead lead) : e ++ '"' :: (callEnd ++ (d.binding ++ w)) ≠
      interior ++ '\x7d' :: (fromWord ++ (lead ++ u)) := by
  have hfrom : fromWord = " from ".toList ++ ['"'] := by decide
  have hspaced : '"' ∉ " from ".toList := by decide
  intro h
  by_cases hclose : '\x7d' ∈ e
  · -- The brace is one of the text before the quote, and the quote the one before the lead.
    obtain ⟨a, b, rfl, ha⟩ := List.eq_append_cons_of_mem hclose
    rw [List.append_assoc, List.cons_append] at h
    obtain ⟨-, -, h⟩ := Text.run_unique h (Text.all_ne ha) (Text.all_ne hi) (by simp) (by simp)
    have hb : '"' ∉ b := fun hb => he (by simp [hb])
    rw [hfrom, List.append_assoc, List.singleton_append] at h
    obtain ⟨-, -, h⟩ := Text.run_unique h (Text.all_ne hb) (Text.all_ne hspaced) (by simp) (by simp)
    exact lead_append_ne hlead u _ h.symm
  · -- The brace is the one behind the pattern.
    have hend : '\x7d' ∉ callEnd := by decide
    have hequals : equals = ' ' :: '=' :: [' '] := by decide
    have hfrom' : fromWord = ' ' :: 'f' :: "rom \"".toList := by decide
    have hbefore : '\x7d' ∉ e ++ '"' :: (callEnd ++ '\x7b' :: d.inner) := by
      simp [hclose, hend, d.inner_close]
    have hcut : e ++ '"' :: (callEnd ++ (d.binding ++ w)) =
        (e ++ '"' :: (callEnd ++ '\x7b' :: d.inner)) ++ '\x7d' ::
          (equals ++ moduleConstant d.constant ++ [';'] ++ w) := by
      simp only [binding, List.append_assoc, List.cons_append]
    rw [hcut] at h
    obtain ⟨-, -, h⟩ := Text.run_unique h (Text.all_ne hbefore) (Text.all_ne hi) (by simp) (by simp)
    rw [hequals, hfrom'] at h
    exact absurd (List.cons.inj (List.cons.inj h).2).1 (by decide)

/-- A clause does not end in the declarations before a lead. -/
theorem not_closed (d : Printed) {interior k u w : Text} (hk : '\x7d' ∉ k) (hi : '\x7d' ∉ interior)
    (hlead : IsLead lead) :
    k ++ (d.text ++ w) ≠ interior ++ '\x7d' :: (fromWord ++ (lead ++ u)) := by
  intro h
  have hcut : (k ++ callLead d.constant ++ ['"']) ++
      (d.literal ++ '"' :: (callEnd ++ (d.binding ++ w))) =
      interior ++ '\x7d' :: (fromWord ++ (lead ++ u)) := by
    rw [← h, text]
    simp only [List.append_assoc, List.cons_append, List.nil_append]
  have hbrace : '\x7d' ∉ k ++ callLead d.constant ++ ['"'] := by
    simp [hk, notMem_callLead d.constant (show '\x7d' ∈ clauseMarks by decide)]
  obtain ⟨i, rfl⟩ := Text.exists_append_of_notMem hcut hbrace
  rw [List.append_assoc _ i] at hcut
  exact d.not_ended d.literal_double (fun hc => hi (List.mem_append_right _ hc)) hlead
    (List.append_cancel_left hcut)

/-- The name of a module ends before the declarations, or goes on to the literal. -/
theorem name_before (d : Printed) {name m r w : Text} (hname : '"' ∉ name)
    (h : name ++ (statementEnd ++ r) = m ++ (d.text ++ w)) :
    (∃ k, m = name ++ (statementEnd ++ k)) ∨ '"' ∉ m ∧ ';' ∈ d.literal.head? := by
  rw [Spelling.statementEnd_eq, List.cons_append, List.singleton_append] at h
  by_cases hquote : '"' ∈ m
  · obtain ⟨b, m, rfl, hb⟩ := List.eq_append_cons_of_mem hquote
    rw [List.append_assoc, List.cons_append] at h
    obtain ⟨rfl, -, hend⟩ :=
      Text.run_unique h (Text.all_ne hname) (Text.all_ne hb) (by simp) (by simp)
    obtain ⟨t, ht⟩ := d.text_eq_cons
    cases m with
    | nil =>
      rw [ht] at hend
      exact absurd (List.cons.inj hend).1 (by decide)
    | cons c m =>
      obtain ⟨rfl, -⟩ := List.cons.inj hend
      exact Or.inl ⟨m, by rw [Spelling.statementEnd_eq]; rfl⟩
  · have hcall : '"' ∉ m ++ callLead d.constant := by
      rw [List.mem_append]
      exact not_or.mpr ⟨hquote, notMem_callLead d.constant (by decide)⟩
    rw [text, List.append_assoc, ← List.append_assoc m] at h
    obtain ⟨-, -, hend⟩ :=
      Text.run_unique h (Text.all_ne hname) (Text.all_ne hcall) (by simp) (by simp)
    refine Or.inr ⟨hquote, ?_⟩
    cases hl : d.literal with
    | nil =>
      rw [hl] at hend
      exact absurd (List.cons.inj hend).1 (by decide)
    | cons c literal =>
      rw [hl] at hend
      obtain ⟨rfl, -⟩ := List.cons.inj hend
      rfl

/-- A statement that begins before the declarations ends before them, or breaks off there. -/
theorem statement?_before (d : Printed)
    (h : statement? (g ++ (d.text ++ w)) = some (found, parts)) :
    (∃ y : Spelling, ∃ m, g = y.text ++ m) ∨ BreaksOff g ∧ ';' ∈ d.literal.head? := by
  obtain ⟨y, r, hy, -, -⟩ := exists_spelling h
  obtain ⟨t, ht⟩ := d.text_eq_cons
  have hopen : Text.Apart (importWord ++ ['\x7b']) (d.text ++ w) := by
    rw [ht]
    exact Text.apart_of_notMem (by decide) _
  have hlead : Text.Apart (fromWord ++ y.lead) (d.text ++ w) := by
    rw [text, List.append_assoc]
    exact apart_lead y.isLead d.constant _
  rw [y.text_append, Spelling.import_brace] at hy
  obtain ⟨k, rfl, hclause⟩ := hopen.split hy
  by_cases hclose : '\x7d' ∈ k
  · obtain ⟨a, k, rfl, ha⟩ := List.eq_append_cons_of_mem hclose
    rw [List.append_assoc, List.cons_append] at hclause
    obtain ⟨rfl, -, hfrom⟩ :=
      Text.run_unique hclause (Text.all_ne y.interior_brace) (Text.all_ne ha) (by simp) (by simp)
    rw [← List.append_assoc] at hfrom
    obtain ⟨m, rfl, hname⟩ := hlead.split hfrom.symm
    rcases d.name_before y.name_quote hname with ⟨k, rfl⟩ | ⟨hquote, hhead⟩
    · refine Or.inl ⟨y, k, ?_⟩
      rw [y.text_append, Spelling.import_brace]
      simp only [List.append_assoc, List.cons_append, List.nil_append]
    · refine Or.inr ⟨⟨[], y.interior, y.lead, m, ?_, y.interior_ne_nil, y.interior_brace, y.isLead,
        hquote⟩, hhead⟩
      simp only [List.append_assoc, List.cons_append, List.nil_append]
  · exact absurd hclause.symm (d.not_closed hclose y.interior_brace y.isLead)

/-- An opening that begins before the declarations has its lead before them. -/
theorem opening?_before (d : Printed) (h : opening? (g ++ (d.text ++ w)) = some (found, name)) :
    ∃ y : Opening, ∃ m, g = y.text ++ m := by
  obtain ⟨y, r, hy, -⟩ := exists_opening h
  obtain ⟨t, ht⟩ := d.text_eq_cons
  have hopen : Text.Apart ("import".toList ++ y.blanks ++ ['\x7b']) (d.text ++ w) := by
    rw [ht]
    exact apart_leads y.blanks_blank (by decide) (by decide) (by decide) _
  have hlead : Text.Apart y.lead (d.text ++ w) := by
    intro m hm
    rw [text, List.append_assoc]
    exact apart_lead y.isLead d.constant _ m (hm.trans (List.suffix_append _ _))
  have hy' : g ++ (d.text ++ w) = ("import".toList ++ y.blanks ++ ['\x7b']) ++
      (y.interior ++ y.quote :: (y.lead ++ (y.name ++ r))) := by
    rw [hy, Opening.text_eq]
    generalize "import".toList = word
    simp only [List.append_assoc, List.cons_append, List.nil_append]
  obtain ⟨k, rfl, hinterior⟩ := hopen.split hy'
  cases hk : k.dropWhile isOpen with
  | nil =>
    -- Everything before the literal is open, and does not end in the word.
    have hcall : ∀ c ∈ k ++ callLead d.constant, isOpen c = true := by
      intro c hc
      rcases List.mem_append.mp hc with hc | hc
      · exact List.dropWhile_eq_nil_iff.mp hk c hc
      · exact isOpen_of_unmarked fun hm => notMem_callLead d.constant hm hc
    rw [text, List.append_assoc, ← List.append_assoc k] at hinterior
    obtain ⟨he, -, -⟩ :=
      Text.run_unique hinterior y.interior_open hcall y.quote_isOpen Opening.isOpen_quote
    have hfrom := y.interior_from
    rw [he, endsInFrom_callLead] at hfrom
    cases hfrom
  | cons c m =>
    obtain ⟨he, hc⟩ := Text.split_run hk
    rw [he, List.append_assoc, List.cons_append] at hinterior
    obtain ⟨hrun, rfl, hbehind⟩ := Text.run_unique hinterior y.interior_open
      (fun _ => Text.mem_takeWhile) y.quote_isOpen hc
    obtain ⟨m, rfl, -⟩ := hlead.split hbehind.symm
    refine ⟨{ y with name := [], name_plain := by simp }, m, ?_⟩
    rw [he, ← hrun, Opening.text_eq]
    generalize "import".toList = word
    simp only [List.append_assoc, List.cons_append, List.nil_append]

/-- Nothing that begins inside the literal is recognised. -/
theorem silent_literal (d : Printed) {e : Text} (hdouble : '"' ∉ e) (hsingle : '\'' ∉ e) (w : Text) :
    statement? (e ++ '"' :: (callEnd ++ (d.binding ++ w))) = none ∧
      opening? (e ++ '"' :: (callEnd ++ (d.binding ++ w))) = none := by
  constructor
  · cases hs : statement? (e ++ '"' :: (callEnd ++ (d.binding ++ w))) with
    | none => rfl
    | some accepted =>
      obtain ⟨y, r, hy, -, -⟩ := exists_spelling hs
      rw [y.text_append, Spelling.import_brace] at hy
      obtain ⟨k, rfl, hclause⟩ := (Text.apart_of_notMem (by decide) _).split hy
      exact absurd hclause.symm
        (d.not_ended (fun hk => hdouble (List.mem_append_right _ hk)) y.interior_brace y.isLead)
  · cases ho : opening? (e ++ '"' :: (callEnd ++ (d.binding ++ w))) with
    | none => rfl
    | some accepted =>
      obtain ⟨y, r, hy, -⟩ := exists_opening ho
      have hy' : e ++ '"' :: (callEnd ++ (d.binding ++ w)) =
          ("import".toList ++ y.blanks ++ ['\x7b']) ++
            (y.interior ++ y.quote :: (y.lead ++ (y.name ++ r))) := by
        rw [hy, Opening.text_eq]
        generalize "import".toList = word
        simp only [List.append_assoc, List.cons_append, List.nil_append]
      obtain ⟨k, rfl, hinterior⟩ :=
        (apart_leads y.blanks_blank (by decide) (by decide) (by decide) _).split hy'
      cases hk : k.dropWhile isOpen with
      | nil =>
        obtain ⟨-, -, hlead⟩ := Text.run_unique hinterior y.interior_open
          (List.dropWhile_eq_nil_iff.mp hk) y.quote_isOpen Opening.isOpen_quote
        exact absurd hlead (lead_append_ne y.isLead _ _)
      | cons c m =>
        -- The quote of the opening would be a character of the literal.
        obtain ⟨he, hc⟩ := Text.split_run hk
        rw [he, List.append_assoc, List.cons_append] at hinterior
        obtain ⟨-, rfl, -⟩ := Text.run_unique hinterior y.interior_open
          (fun _ => Text.mem_takeWhile) y.quote_isOpen hc
        have hmem : y.quote ∈ k := by
          rw [he]
          exact List.mem_append_right _ List.mem_cons_self
        rcases y.quote_eq with hq | hq
        · exact absurd (List.mem_append_right _ (hq ▸ hmem)) hdouble
        · exact absurd (List.mem_append_right _ (hq ▸ hmem)) hsingle

theorem binding_tail (d : Printed) : '\x7b' ∉ '\x7d' :: (equals ++ moduleConstant d.constant) := by
  have hcall := notMem_callLead d.constant (show '\x7b' ∈ clauseMarks by decide)
  unfold callLead at hcall
  generalize "require(".toList = call at hcall
  simp only [List.mem_append, not_or] at hcall
  simp [hcall.1]

/-- Nothing that begins in the declarations is recognised. -/
theorem silent (d : Printed) {q : Text} (hq : q <:+ d.text) (hne : q ≠ []) (w : Text) :
    statement? (q ++ w) = none ∧ opening? (q ++ w) = none := by
  rw [text] at hq
  rcases Text.suffix_append_cases hq with hq | ⟨e, -, he, rfl⟩
  swap
  · rw [List.append_assoc]
    exact silent_of_stop (fun hb => notMem_callLead d.constant (by decide) (he.subset hb))
      (by decide) _
  rcases List.suffix_cons_iff.mp hq with rfl | hq
  · exact silent_of_stop (e := []) (by simp) (by decide) _
  rcases Text.suffix_append_cases hq with hq | ⟨e, -, he, rfl⟩
  swap
  · rw [List.append_assoc, List.cons_append, List.append_assoc]
    exact d.silent_literal (fun hc => d.literal_double (he.subset hc))
      (fun hc => d.literal_single (he.subset hc)) w
  rcases List.suffix_cons_iff.mp hq with rfl | hq
  · exact silent_of_stop (e := []) (by simp) (by decide) _
  rcases Text.suffix_append_cases hq with hq | ⟨e, hsome, he, rfl⟩
  swap
  · have hend : 'i' ∉ callEnd := by decide
    obtain ⟨c, e, rfl⟩ := List.exists_cons_of_ne_nil hsome
    exact silent_of_not_leads fun h => hend (h.head ▸ he.subset List.mem_cons_self)
  rw [binding] at hq
  rcases List.suffix_cons_iff.mp hq with rfl | hq
  · exact silent_of_not_leads fun h => absurd h.head (by decide)
  rcases Text.suffix_append_cases hq with hq | ⟨e, -, he, rfl⟩
  swap
  · rw [List.append_assoc]
    exact silent_of_stop (fun hb => d.inner_open (he.subset hb)) (by decide) _
  rw [← List.cons_append] at hq
  rcases Text.suffix_append_cases hq with hq | ⟨e, -, he, rfl⟩
  · obtain rfl := (List.suffix_cons_iff.mp hq).resolve_right fun h => hne (List.suffix_nil.mp h)
    exact silent_of_stop (e := []) (by simp) (by decide) _
  · rw [List.append_assoc]
    exact silent_of_stop (fun hb => d.binding_tail (he.subset hb)) (by decide) _

end Printed

end GadgetBuild.Import
