import Mathlib.Data.List.TakeWhile
import GadgetBuild.Proofs.Import.Specifiers
import GadgetBuild.Proofs.Import.Statements

/-!
The openings that a scan looks for beside the statements: how they are spelled, and that one that
begins where a statement begins ends before the statement does.
-/

namespace GadgetBuild

theorem isBlank_ne_quote (h : isBlank c = true) : c ≠ ';' ∧ c ≠ '"' ∧ c ≠ '\'' ∧ c ≠ '\x7b' := by
  refine ⟨?_, ?_, ?_, ?_⟩
  all_goals
    rintro rfl
    revert h
    decide

/-- The code points of blanks. -/
def blankPoints : List Nat :=
  [0x09, 0x0A, 0x0B, 0x0C, 0x0D, 0x20, 0x85, 0xA0, 0x1680, 0x2000, 0x2001, 0x2002, 0x2003, 0x2004,
    0x2005, 0x2006, 0x2007, 0x2008, 0x2009, 0x200A, 0x2028, 0x2029, 0x202F, 0x205F, 0x3000]

theorem mem_blankPoints (h : isBlank c = true) : c.toNat ∈ blankPoints := by
  simp only [isBlank, Bool.or_eq_true, Bool.and_eq_true, decide_eq_true_eq, beq_iff_eq] at h
  simp only [blankPoints, List.mem_cons, List.not_mem_nil, or_false]
  omega

/-- No word character is blank. -/
theorem isWord_of_isBlank (h : isBlank c = true) : Text.isWord c = false := by
  have hall : ∀ n ∈ blankPoints, (Text.wordRanges.any fun r => r.1 ≤ n && n ≤ r.2) = false := by
    decide +kernel
  exact hall c.toNat (mem_blankPoints h)

namespace Import

open ExternalModule (IsLead)

/-- Neither a quote nor a semicolon. -/
def isOpen (c : Char) : Bool :=
  !(c = ';' || c = '"' || c = '\'')

theorem isOpen_of_unmarked (h : c ∉ clauseMarks) : isOpen c = true := by
  simp only [clauseMarks, List.mem_cons, not_or] at h
  simp [isOpen, h]

/-- Neither a quote nor blank. -/
def isPlain (c : Char) : Bool :=
  !(c = '"' || c = '\'' || isBlank c)

/-- What varies in the spelling of an opening. -/
structure Opening where
  blanks : Text
  interior : Text
  quote : Char
  lead : Text
  name : Text
  blanks_blank : ∀ c ∈ blanks, isBlank c = true
  interior_open : ∀ c ∈ interior, isOpen c = true
  interior_from : endsInFrom interior = true
  quote_eq : quote = '"' ∨ quote = '\''
  isLead : IsLead lead
  name_plain : ∀ c ∈ name, isPlain c = true

namespace Opening

def text (x : Opening) : Text :=
  "import".toList ++ (x.blanks ++ '\x7b' :: (x.interior ++ x.quote :: (x.lead ++ x.name)))

theorem quote_isOpen (x : Opening) : isOpen x.quote = false := by
  rcases x.quote_eq with h | h
  · rw [h]
    rfl
  · rw [h]
    rfl

/-- An opening is recognised, with as much of a name as follows it. -/
theorem opening?_isSome (x : Opening) (rest : Text) : ∃ y, opening? (x.text ++ rest) = some y := by
  have he : x.text ++ rest = "import".toList ++ (x.blanks ++ '\x7b' ::
      (x.interior ++ x.quote :: (x.lead ++ (x.name ++ rest)))) := by
    unfold text
    simp only [List.append_assoc, List.cons_append]
  have hlead : ExternalModule.afterLead? (x.lead ++ (x.name ++ rest)) =
      some (x.lead, x.name ++ rest) :=
    ExternalModule.afterLead?_eq_some_iff.mpr ⟨x.isLead, rfl⟩
  have hbrace : isBlank '\x7b' = false := by decide
  have hsemicolon : x.quote ≠ ';' := by
    intro h
    rcases x.quote_eq with hq | hq
    all_goals
      rw [h] at hq
      revert hq
      decide
  unfold opening?
  rw [he, Text.after?_append]
  simp only [Option.bind_eq_bind, Option.bind_some,
    Text.takeWhile_append_cons x.blanks_blank hbrace,
    Text.dropWhile_append_cons x.blanks_blank hbrace]
  have htake : (x.interior ++ x.quote :: (x.lead ++ (x.name ++ rest))).takeWhile
      (fun c => !(decide (c = ';') || decide (c = '"') || decide (c = '\''))) = x.interior :=
    Text.takeWhile_append_cons x.interior_open x.quote_isOpen _
  have hdrop : (x.interior ++ x.quote :: (x.lead ++ (x.name ++ rest))).dropWhile
      (fun c => !(decide (c = ';') || decide (c = '"') || decide (c = '\''))) =
      x.quote :: (x.lead ++ (x.name ++ rest)) :=
    Text.dropWhile_append_cons x.interior_open x.quote_isOpen _
  have hafter : Text.after? ['\x7b'] ('\x7b' :: (x.interior ++ x.quote :: (x.lead ++
      (x.name ++ rest)))) = some (x.interior ++ x.quote :: (x.lead ++ (x.name ++ rest))) :=
    Text.after?_append ['\x7b'] _
  rw [hafter, Option.bind_some]
  simp only [htake, hdrop, x.interior_from, hsemicolon, if_false, hlead, Option.bind_some,
    Bool.not_true, Bool.false_eq_true]
  exact ⟨_, rfl⟩

end Opening

/-- Nothing else is recognised. -/
theorem exists_opening (h : opening? t = some (found, name)) :
    ∃ x : Opening, ∃ rest, t = x.text ++ rest ∧ found = x.text := by
  unfold opening? at h
  simp only [Option.bind_eq_bind, Option.bind_eq_some_iff, pure] at h
  obtain ⟨t₁, himport, h⟩ := h
  obtain ⟨t₂, hbrace, h⟩ := h
  split at h
  · cases h
  rename_i hfrom
  split at h
  · cases h
  rename_i quote t₃ hquote
  split at h
  · cases h
  rename_i hsemicolon
  obtain ⟨⟨lead, t₄⟩, hlead, h⟩ := Option.bind_eq_some_iff.mp h
  obtain ⟨rfl, rfl⟩ := Prod.mk.inj (Option.some.inj h)
  obtain ⟨hisLead, rfl⟩ := ExternalModule.afterLead?_eq_some_iff.mp hlead
  obtain ⟨ht₁, _⟩ := Text.split_run (Text.after?_eq_some_iff.mp hbrace)
  obtain ⟨ht₂, hends⟩ := Text.split_run hquote
  have hquote' : quote = '"' ∨ quote = '\'' := by
    by_cases hq : quote = '"'
    · exact Or.inl hq
    · exact Or.inr (by simpa [hsemicolon, hq] using hends)
  let x : Opening :=
    { blanks := t₁.takeWhile isBlank
      interior := t₂.takeWhile fun c => !(decide (c = ';') || decide (c = '"') || decide (c = '\''))
      quote := quote
      lead := lead
      name := t₄.takeWhile fun c => !(decide (c = '"') || decide (c = '\'') || isBlank c)
      blanks_blank := fun c hc => Text.mem_takeWhile hc
      interior_open := fun c hc => Text.mem_takeWhile hc
      interior_from := by simpa using hfrom
      quote_eq := hquote'
      isLead := hisLead
      name_plain := fun c hc => Text.mem_takeWhile hc }
  refine ⟨x, t₄.dropWhile fun c => !(decide (c = '"') || decide (c = '\'') || isBlank c), ?_, ?_⟩
  · unfold Opening.text
    simp only [x, List.append_assoc, List.cons_append, List.takeWhile_append_dropWhile]
    rw [← ht₂]
    exact (Text.after?_eq_some_iff.mp himport).trans (congrArg _ ht₁)
  · unfold Opening.text
    simp only [x, List.append_assoc, List.cons_append]

/-- The word `from` counts where no word character stands before it, and before blanks. -/
theorem endsInFrom_of_last {t : Text} (hlast : ∀ c ∈ t.getLast?, Text.isWord c = false)
    (hquote : ∀ c ∈ beforeQuote, isBlank c = true) :
    endsInFrom (t ++ ("from".toList ++ beforeQuote)) = true := by
  have hword : "from".toList.reverse = 'm' :: ['o', 'r', 'f'] := by decide
  have hdrop : (t ++ ("from".toList ++ beforeQuote)).reverse.dropWhile isBlank =
      "from".toList.reverse ++ t.reverse := by
    rw [List.reverse_append, List.reverse_append, hword, List.append_assoc, List.cons_append,
      Text.dropWhile_append_cons (fun c hc => hquote c (List.mem_reverse.mp hc)) (by decide)]
  unfold endsInFrom
  rw [hdrop, Text.after?_append]
  cases ht : t.reverse with
  | nil => rfl
  | cons c u =>
    have hc : c ∈ t.getLast? := by
      rw [← List.head?_reverse, ht]
      rfl
    simp [hlast c hc]

/-- It counts behind a brace, with or without blanks between. -/
theorem endsInFrom_of_brace (hfrom : ∀ c ∈ beforeFrom, isBlank c = true)
    (hquote : ∀ c ∈ beforeQuote, isBlank c = true) (specifiers : Text) :
    endsInFrom (specifiers ++ '\x7d' :: (beforeFrom ++ "from".toList ++ beforeQuote)) = true := by
  have hbrace : Text.isWord '\x7d' = false := by decide +kernel
  have hassoc : specifiers ++ '\x7d' :: (beforeFrom ++ "from".toList ++ beforeQuote) =
      (specifiers ++ '\x7d' :: beforeFrom) ++ ("from".toList ++ beforeQuote) := by
    simp only [List.append_assoc, List.cons_append]
  rw [hassoc]
  refine endsInFrom_of_last ?_ hquote
  intro c hc
  rw [List.getLast?_append_of_ne_nil _ (List.cons_ne_nil _ _)] at hc
  rcases List.mem_cons.mp (List.mem_of_mem_getLast? hc) with rfl | hc
  · exact hbrace
  · exact isWord_of_isBlank (hfrom c hc)

theorem plain_of_isLead (h : IsLead lead) : ∀ c ∈ lead, isPlain c = true := by
  apply List.all_eq_true.mp
  rcases h with rfl | rfl
  · decide
  · decide

theorem notMem_of_plain {t : Text} (h : ∀ c ∈ t, isPlain c = true) (hd : isPlain d = false) :
    d ∉ t := by
  intro hm
  rw [h d hm] at hd
  cases hd

namespace Opening

/-- The lead and the name: the end of an opening, without a blank or a quote. -/
theorem plain_end (x : Opening) : ∀ c ∈ x.lead ++ x.name, isPlain c = true := by
  intro c hc
  rcases List.mem_append.mp hc with hc | hc
  · exact plain_of_isLead x.isLead c hc
  · exact x.name_plain c hc

theorem importWord_eq : importWord = "import".toList ++ [' '] := by decide

theorem brace_fromWord : '\x7d' :: fromWord = "\x7d from ".toList ++ ['"'] := by decide

theorem isOpen_quote : isOpen '"' = false := by decide

theorem text_eq (x : Opening) : x.text = "import".toList ++ (x.blanks ++ '\x7b' ::
    (x.interior ++ x.quote :: (x.lead ++ x.name))) :=
  rfl

theorem spelling_text_eq (y : Spelling) : y.text = "import".toList ++ ([' '] ++ '\x7b' ::
    (y.interior ++ '\x7d' :: (fromWord ++ (y.lead ++ (y.name ++ statementEnd))))) := by
  unfold Spelling.text Spelling.clause Spelling.ending
  rw [importWord_eq]
  simp only [List.append_assoc, List.cons_append, List.nil_append]

/-- Where an opening and a statement start together, there is one blank before the brace and the
texts behind it are the same. -/
theorem behind_brace {x : Opening} {y : Spelling} (h : x.text ++ r = y.text ++ s) :
    x.blanks = [' '] ∧ x.interior ++ x.quote :: (x.lead ++ x.name ++ r) =
      y.interior ++ '\x7d' :: (fromWord ++ (y.lead ++ y.name ++ (statementEnd ++ s))) := by
  have hrest : x.blanks ++ '\x7b' :: (x.interior ++ x.quote :: (x.lead ++ x.name ++ r)) =
      [' '] ++ '\x7b' :: (y.interior ++ '\x7d' ::
        (fromWord ++ (y.lead ++ y.name ++ (statementEnd ++ s)))) := by
    refine (List.append_right_inj "import".toList).mp ?_
    have hleft : "import".toList ++ (x.blanks ++ '\x7b' :: (x.interior ++ x.quote ::
        (x.lead ++ x.name ++ r))) = x.text ++ r := by
      rw [text_eq]
      simp only [List.append_assoc, List.cons_append]
    rw [hleft, h, spelling_text_eq]
    simp only [List.append_assoc, List.cons_append]
  obtain ⟨hblanks, _, hrest⟩ := Text.run_unique hrest x.blanks_blank
    (List.forall_mem_singleton.mpr rfl) (by decide) (by decide)
  exact ⟨hblanks, hrest⟩

/-- An opening that ends at a quote between the braces cannot pass the blank behind them. -/
theorem exists_append_inside {x : Opening} {y : Spelling} {c : Char} (hblanks : x.blanks = [' '])
    (hinterior : y.interior = x.interior ++ c :: m)
    (hm : x.quote :: (x.lead ++ x.name ++ r) =
      c :: (m ++ '\x7d' :: (fromWord ++ (y.lead ++ y.name ++ (statementEnd ++ s))))) :
    ∃ k, y.text = x.text ++ k := by
  obtain ⟨rfl, hbehind⟩ := List.cons.inj hm
  have hfrom : fromWord = ' ' :: "from \"".toList := by decide
  have hblank : x.lead ++ x.name ++ r = (m ++ ['\x7d']) ++ ' ' ::
      ("from \"".toList ++ (y.lead ++ y.name ++ (statementEnd ++ s))) := by
    rw [hbehind, hfrom]
    exact List.append_cons m _ _
  obtain ⟨k, hk⟩ :=
    Text.exists_append_of_notMem hblank (notMem_of_plain x.plain_end (by decide))
  refine ⟨k ++ (fromWord ++ (y.lead ++ (y.name ++ statementEnd))), ?_⟩
  have hend : m ++ '\x7d' :: (fromWord ++ (y.lead ++ (y.name ++ statementEnd))) =
      (x.lead ++ x.name ++ k) ++ (fromWord ++ (y.lead ++ (y.name ++ statementEnd))) := by
    rw [← hk, List.append_assoc]
    rfl
  rw [spelling_text_eq, text_eq, hblanks, hinterior]
  simp only [List.append_assoc, List.cons_append] at hend ⊢
  rw [hend]

/-- One that passes the closing brace cannot pass the quote before the name. -/
theorem exists_append_past {x : Opening} {y : Spelling} (hblanks : x.blanks = [' '])
    (hinterior : x.interior = y.interior ++ m)
    (hm : '\x7d' :: (fromWord ++ (y.lead ++ y.name ++ (statementEnd ++ s))) =
      m ++ x.quote :: (x.lead ++ x.name ++ r)) :
    ∃ k, y.text = x.text ++ k := by
  have hend : m ++ x.quote :: (x.lead ++ x.name ++ r) = "\x7d from ".toList ++ '"' ::
      (y.lead ++ y.name ++ (statementEnd ++ s)) := by
    rw [← hm, ← List.cons_append, brace_fromWord, List.append_assoc]
    rfl
  obtain ⟨rfl, hquote, hname⟩ := Text.run_unique hend
    (fun c hc => x.interior_open c (hinterior ▸ List.mem_append_right _ hc))
    (List.all_eq_true.mp (by decide)) x.quote_isOpen isOpen_quote
  rw [Spelling.statementEnd_eq] at hname
  obtain ⟨k, hk⟩ :=
    Text.exists_append_of_notMem hname (notMem_of_plain x.plain_end (by decide))
  refine ⟨k ++ statementEnd, ?_⟩
  have hmiddle : '\x7d' :: (fromWord ++ (y.lead ++ (y.name ++ statementEnd))) =
      "\x7d from ".toList ++ x.quote :: (x.lead ++ x.name ++ (k ++ statementEnd)) := by
    rw [hquote, ← List.cons_append, brace_fromWord, ← List.append_assoc y.lead, hk]
    simp only [List.append_assoc, List.cons_append, List.nil_append]
  rw [spelling_text_eq, text_eq, hblanks, hinterior, hmiddle]
  simp only [List.append_assoc, List.cons_append]

/-- An opening at the start of a statement is a beginning of it. -/
theorem exists_append {x : Opening} {y : Spelling} (h : x.text ++ r = y.text ++ s) :
    ∃ k, y.text = x.text ++ k := by
  obtain ⟨hblanks, hrest⟩ := behind_brace h
  rcases List.append_eq_append_iff.mp hrest with ⟨m, hinterior, hm⟩ | ⟨m, hinterior, hm⟩
  · cases m with
    | nil =>
      obtain ⟨hq, _⟩ := List.cons.inj hm
      have hopen := x.quote_isOpen
      rw [hq] at hopen
      cases hopen
    | cons c m => exact exists_append_inside hblanks hinterior hm
  · exact exists_append_past hblanks hinterior hm

end Opening

theorem isBlank_space : ∀ c ∈ [' '], isBlank c = true :=
  List.forall_mem_singleton.mpr rfl

namespace Spelling

/-- The source of a statement stands between quotes that an opening can have. -/
theorem quote_eq : '"' = '"' ∨ '"' = '\'' :=
  .inl rfl

/-- The opening that a statement begins with, up to the lead. -/
def opening (x : Spelling) (h : ∀ c ∈ x.interior, isOpen c = true) : Opening where
  blanks := [' ']
  interior := x.interior ++ '\x7d' :: ([' '] ++ "from".toList ++ [' '])
  quote := '"'
  lead := x.lead
  name := []
  blanks_blank := isBlank_space
  interior_open c hc := by
    rcases List.mem_append.mp hc with hc | hc
    · exact h c hc
    · exact List.all_eq_true.mp (by decide) c hc
  interior_from := endsInFrom_of_brace isBlank_space isBlank_space _
  quote_eq := quote_eq
  isLead := x.isLead
  name_plain := by simp

theorem text_opening (x : Spelling) (h : ∀ c ∈ x.interior, isOpen c = true) :
    x.text = (x.opening h).text ++ (x.name ++ statementEnd) := by
  have hmiddle : ∀ u : Text, '\x7d' :: (fromWord ++ u) =
      '\x7d' :: ([' '] ++ "from".toList ++ [' ']) ++ '"' :: u := by
    intro u
    have hfrom : fromWord = [' '] ++ "from".toList ++ [' '] ++ ['"'] := by decide
    rw [hfrom, List.append_assoc _ ['"']]
    rfl
  rw [Opening.spelling_text_eq, Opening.text_eq, hmiddle]
  simp only [opening, List.append_assoc, List.cons_append, List.nil_append]

end Spelling

theorem sound_opening? : Text.Sound opening? where
  front {t found name} h := by
    obtain ⟨x, rest, rfl, rfl⟩ := exists_opening h
    exact ⟨rest, rfl⟩
  solid {t found name} h := by
    obtain ⟨x, rest, _, rfl⟩ := exists_opening h
    exact List.append_ne_nil_of_left_ne_nil (by decide) _

/-- A scan that succeeds has a statement around each opening. The opening is found, or it lies inside
one that is found before. That one begins a statement, which goes on at least as far. -/
theorem exists_statement_of_opening? (hscan : scan (before ++ t) = .ok statements)
    (h : opening? t = some (found, name)) :
    ∃ s ∈ statements, s.span.start ≤ before.size ∧ before.size < s.span.stop := by
  obtain ⟨hstand, hopenings⟩ := stand_of_scan hscan
  obtain ⟨o, ho, hstart, hstop⟩ := sound_opening?.exists_occurrence 0 before h
  rw [Nat.zero_add] at hstart hstop
  obtain ⟨s, hs, hspan⟩ := hopenings o ho
  obtain ⟨p, rest, hcode, hop, hmatch⟩ := sound_opening?.of_mem ho
  obtain ⟨x, -, -, hx⟩ := exists_opening hmatch
  obtain ⟨p', y, rest', hcode', hy⟩ := hstand.exists_reads hs
  have hsize : Text.size p = Text.size p' := by
    have := hy.start_eq
    omega
  obtain ⟨rfl, htext⟩ := Text.append_of_size_eq (hcode.symm.trans hcode') hsize
  rw [hx] at htext
  obtain ⟨k, hk⟩ := Opening.exists_append htext
  refine ⟨s, hs, by omega, ?_⟩
  rw [hy.stop_eq, hk, Text.size_append, ← hx]
  rw [Text.Occurrence.stop] at hstop
  omega

end Import
end GadgetBuild
