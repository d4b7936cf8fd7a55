import GadgetBuild.Proofs.Import.Entries

/-!
Clauses of names, each perhaps with another name behind `as`. All of them are read.
-/

namespace GadgetBuild

namespace Import

/-- The characters that end a name in a clause, or the clause. -/
def clauseMarks : List Char := [',', ';', '"', '\'', '\x7b', '\x7d']

theorem notMem_clauseMarks_of_blank (h : isBlank c = true) : c ∉ clauseMarks := by
  have hall : (clauseMarks.all fun d => !isBlank d) = true := by decide
  intro hm
  have hc := List.all_eq_true.mp hall c hm
  rw [h] at hc
  cases hc

/-- A name in a clause. -/
structure IsName (t : Text) : Prop where
  ne_nil : t ≠ []
  solid : ∀ c ∈ t, isBlank c = false
  unmarked : ∀ c ∈ t, c ∉ clauseMarks

theorem isName_iff {t : Text} :
    t ≠ [] ∧ (t.all fun c => !isBlank c && !clauseMarks.contains c) = true ↔ IsName t := by
  rw [List.all_eq_true]
  constructor
  · rintro ⟨hne, hall⟩
    exact ⟨hne, fun c hc => by simpa using (Bool.and_eq_true_iff.mp (hall c hc)).1,
      fun c hc => by simpa using (Bool.and_eq_true_iff.mp (hall c hc)).2⟩
  · rintro ⟨hne, hsolid, hunmarked⟩
    exact ⟨hne, fun c hc => by simp [hsolid c hc, hunmarked c hc]⟩

instance (t : Text) : Decidable (IsName t) :=
  decidable_of_iff _ isName_iff

theorem isName_asWord : IsName asWord := by
  decide

theorem IsName.isEntryWord (h : IsName t) : IsEntryWord t :=
  ⟨h.ne_nil, h.solid, fun hc => h.unmarked _ hc (by decide)⟩

/-- A name for use in the module instead of the exported one. -/
structure LocalName where
  beforeAs : Text
  behindAs : Text
  name : Text
  beforeAs_gap : IsGap beforeAs
  behindAs_gap : IsGap behindAs
  isName : IsName name

def LocalName.text (r : LocalName) : Text :=
  r.beforeAs ++ (asWord ++ (r.behindAs ++ r.name))

def LocalName.renames (r : LocalName) : Alias :=
  ⟨r.beforeAs, r.behindAs, r.name, r.beforeAs_gap, r.behindAs_gap, r.isName.isEntryWord⟩

structure Specifier where
  before : Text
  name : Text
  localName : Option LocalName
  behind : Text
  before_blank : ∀ c ∈ before, isBlank c = true
  isName : IsName name
  behind_blank : ∀ c ∈ behind, isBlank c = true

namespace Specifier

def text (x : Specifier) : Text :=
  x.before ++ (x.name ++ ((x.localName.map LocalName.text).getD [] ++ x.behind))

/-- A specifier is an entry of a clause. -/
def entry (x : Specifier) : Entry :=
  ⟨x.before, x.name, x.localName.map LocalName.renames, x.behind, x.before_blank,
    x.isName.isEntryWord, x.behind_blank⟩

theorem entry_text (x : Specifier) : x.entry.text = x.text := by
  cases h : x.localName with
  | none => simp [entry, Entry.text, text, h]
  | some r => simp [entry, Entry.text, text, h, LocalName.renames, LocalName.text, Alias.separator]

theorem text_ne_nil (x : Specifier) : x.text ≠ [] := by
  simp [text, x.isName.ne_nil]

theorem unmarked (x : Specifier) : ∀ c ∈ x.text, c ∉ clauseMarks := by
  have hlocal : ∀ c ∈ (x.localName.map LocalName.text).getD [], c ∉ clauseMarks := by
    cases x.localName with
    | none => simp
    | some r =>
      intro c hc
      simp only [Option.map_some, Option.getD_some, LocalName.text, List.mem_append] at hc
      rcases hc with hc | hc | hc | hc
      · exact notMem_clauseMarks_of_blank (r.beforeAs_gap.blank c hc)
      · exact isName_asWord.unmarked c hc
      · exact notMem_clauseMarks_of_blank (r.behindAs_gap.blank c hc)
      · exact r.isName.unmarked c hc
  intro c hc
  simp only [text, List.mem_append] at hc
  rcases hc with hc | hc | hc | hc
  · exact notMem_clauseMarks_of_blank (x.before_blank c hc)
  · exact x.isName.unmarked c hc
  · exact hlocal c hc
  · exact notMem_clauseMarks_of_blank (x.behind_blank c hc)

end Specifier

/-- At least one name, and perhaps a comma with blanks behind the last. -/
structure Clause where
  first : Specifier
  others : List Specifier
  closing : Option Text
  closing_blank : ∀ t ∈ closing, ∀ c ∈ t, isBlank c = true

namespace Clause

def entries (k : Clause) : List Text :=
  (k.first :: k.others).map Specifier.text ++ k.closing.toList

def interior (k : Clause) : Text :=
  List.intercalate [','] k.entries

theorem entries_unmarked (k : Clause) (h : p ∈ k.entries) : ∀ c ∈ p, c ∉ clauseMarks := by
  intro c hc
  rcases List.mem_append.mp h with hp | hp
  · obtain ⟨x, -, rfl⟩ := List.mem_map.mp hp
    exact x.unmarked c hc
  · exact notMem_clauseMarks_of_blank (k.closing_blank p (Option.mem_toList.mp hp) c hc)

/-- A clause of specifiers is spelled as a list of entries. -/
def grammar (k : Clause) : Grammar :=
  ⟨(k.first :: k.others).map Specifier.entry, k.closing, by simp, k.closing_blank⟩

theorem grammar_interior (k : Clause) : k.grammar.interior = k.interior := by
  have hentries : k.grammar.entries.map Entry.text = (k.first :: k.others).map Specifier.text := by
    rw [grammar, List.map_map]
    exact List.map_congr_left fun x _ => x.entry_text
  rw [Grammar.interior, hentries]
  rfl

theorem exists_readClause (k : Clause) (offset : Nat) :
    ∃ bindings, readClause offset k.interior = .ok bindings :=
  ⟨_, k.grammar_interior ▸ k.grammar.readClause_interior offset⟩

theorem interior_ne_nil (k : Clause) : k.interior ≠ [] := by
  intro hnil
  have hfirst : k.first.text <+: k.interior := Text.head_isPrefix_intercalate _ _ _
  rw [hnil, List.prefix_nil] at hfirst
  exact k.first.text_ne_nil hfirst

/-- Of the marks only commas stand in a clause. -/
theorem eq_comma_of_mem_interior (k : Clause) (hc : c ∈ k.interior) (hm : c ∈ clauseMarks) :
    c = ',' := by
  rcases Text.exists_of_mem_intercalate hc with h | ⟨p, hp, h⟩
  · exact List.mem_singleton.mp h
  · exact absurd hm (k.entries_unmarked hp c h)

theorem notMem_interior (k : Clause) (hm : c ∈ clauseMarks) (hne : c ≠ ',') : c ∉ k.interior :=
  fun hc => hne (k.eq_comma_of_mem_interior hc hm)

end Clause

end Import
end GadgetBuild
