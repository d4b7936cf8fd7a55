import GadgetBuild.Import.Scan
import GadgetBuild.Proofs.Import.Clauses

/-!
The grammar of a clause: entries with commas between them, each a name or two names with `as`
between, and perhaps one comma behind the last. A clause is read exactly if it is spelled so, and
what is read are its entries, with the places of their separators.
-/

namespace GadgetBuild

namespace Text

theorem word?_eq_none_iff {t : Text} : word? (c :: t) = none ↔ isBlank c = true := by
  rw [word?, List.takeWhile_cons]
  cases isBlank c with
  | true => simp
  | false => simp

/-- Blanks between words are passed over. -/
theorem words_blanks {blanks : Text} (h : ∀ c ∈ blanks, isBlank c = true) (t : Text) :
    occurrencesFrom word? offset 0 (blanks ++ t) =
      occurrencesFrom word? (offset + blanks.size) 0 t := by
  induction blanks generalizing offset with
  | nil => rfl
  | cons c blanks ih =>
    have hc : word? (c :: (blanks ++ t)) = none := word?_eq_none_iff.mpr (h c List.mem_cons_self)
    rw [List.cons_append, occurrencesFrom_none hc, ih fun d hd => h d (List.mem_cons_of_mem _ hd),
      size_cons, Nat.add_assoc]

/-- A word goes on to the next blank. -/
theorem words_word {word rest : Text} (hne : word ≠ []) (h : ∀ c ∈ word, isBlank c = false)
    (hrest : ∀ c ∈ rest.head?, isBlank c = true) :
    occurrencesFrom word? offset 0 (word ++ rest) =
      ⟨offset, word, ()⟩ :: occurrencesFrom word? (offset + word.size) 0 rest := by
  have htake : rest.takeWhile (fun c => !isBlank c) = [] := by
    cases rest with
    | nil => rfl
    | cons c rest => exact List.takeWhile_cons_of_neg (by simp [hrest c rfl])
  have hword : (word ++ rest).takeWhile (fun c => !isBlank c) = word := by
    rw [List.takeWhile_append_of_pos (fun c hc => by simp [h c hc]), htake, List.append_nil]
  refine sound_word?.occurrencesFrom_some ?_
  obtain ⟨c, w, rfl⟩ := List.exists_cons_of_ne_nil hne
  rw [word?, hword]

/-- A text without words is blank. -/
theorem blank_of_no_words {t : Text} (h : occurrencesFrom word? offset 0 t = []) :
    ∀ c ∈ t, isBlank c = true := by
  intro c hc
  by_contra hblank
  obtain ⟨p, q, rfl⟩ := List.append_of_mem hc
  obtain ⟨⟨found, value⟩, hfound⟩ :=
    Option.ne_none_iff_exists'.mp (mt (word?_eq_none_iff (t := q)).mp hblank)
  obtain ⟨o, ho, -⟩ := sound_word?.exists_occurrence offset p hfound
  rw [h] at ho
  cases ho

/-- The first word stands between blanks, or at an end of the text. -/
theorem exists_of_words_cons {t : Text} (h : occurrencesFrom word? offset 0 t = o :: os) :
    ∃ gap rest, t = gap ++ (o.text ++ rest) ∧ (∀ c ∈ gap, isBlank c = true) ∧ o.text ≠ [] ∧
      (∀ c ∈ o.text, isBlank c = false) ∧ (∀ c ∈ rest.head?, isBlank c = true) ∧
      occurrencesFrom word? o.stop 0 rest = os := by
  obtain ⟨gap, rest, rfl, -, hsilent, hmatch, hrest⟩ := sound_word?.occurrencesFrom_eq_cons h
  have htake : (o.text ++ rest).takeWhile (fun c => !isBlank c) = o.text := by
    unfold word? at hmatch
    split at hmatch
    · cases hmatch
    · exact (Prod.mk.inj (Option.some.inj hmatch)).1
  refine ⟨gap, rest, rfl, ?_, sound_word?.solid hmatch, ?_, ?_, hrest⟩
  · intro c hc
    obtain ⟨p, q, rfl⟩ := List.append_of_mem hc
    exact word?_eq_none_iff.mp (hsilent p (c :: q) rfl (List.cons_ne_nil c q))
  · intro c hc
    rw [← htake] at hc
    simpa using mem_takeWhile hc
  · rintro c hc
    obtain ⟨rest, rfl⟩ := List.head?_eq_some_iff.mp hc
    -- A character that is not blank would belong to the word.
    by_contra hblank
    have hword : ∀ d ∈ o.text, (!isBlank d) = true := by
      intro d hd
      rw [← htake] at hd
      exact mem_takeWhile hd
    rw [List.takeWhile_append_of_pos hword, List.takeWhile_cons_of_pos (by simp [hblank]),
      List.append_right_eq_self] at htake
    cases htake

end Text

namespace Import

/-- A word of an entry. -/
structure IsEntryWord (t : Text) : Prop where
  ne_nil : t ≠ []
  solid : ∀ c ∈ t, isBlank c = false
  comma : ',' ∉ t

theorem isEntryWord_asWord : IsEntryWord asWord where
  ne_nil := by decide
  solid c hc := by
    have hall : (asWord.all fun c => !isBlank c) = true := by decide
    simpa using List.all_eq_true.mp hall c hc
  comma := by decide

/-- Blanks that stand between two words. -/
structure IsGap (t : Text) : Prop where
  ne_nil : t ≠ []
  blank : ∀ c ∈ t, isBlank c = true

theorem IsGap.head_blank (h : IsGap t) (rest : Text) :
    ∀ c ∈ (t ++ rest).head?, isBlank c = true := by
  obtain ⟨d, t, rfl⟩ := List.exists_cons_of_ne_nil h.ne_nil
  rintro c ⟨⟩
  exact h.blank _ List.mem_cons_self

theorem comma_notMem_of_blank {t : Text} (h : ∀ c ∈ t, isBlank c = true) : ',' ∉ t := by
  intro hc
  have hcomma := h ',' hc
  revert hcomma
  decide

/-- The words on both sides of blanks are apart. -/
theorem isGap_of_head_blank {gap word rest : Text} (hgap : ∀ c ∈ gap, isBlank c = true)
    (hne : word ≠ []) (hword : ∀ c ∈ word, isBlank c = false)
    (hhead : ∀ c ∈ (gap ++ (word ++ rest)).head?, isBlank c = true) : IsGap gap := by
  refine ⟨?_, hgap⟩
  rintro rfl
  obtain ⟨c, w, rfl⟩ := List.exists_cons_of_ne_nil hne
  have hblank := hhead c rfl
  rw [hword c List.mem_cons_self] at hblank
  cases hblank

/-- A second name behind `as`. -/
structure Alias where
  beforeAs : Text
  behindAs : Text
  name : Text
  beforeAs_gap : IsGap beforeAs
  behindAs_gap : IsGap behindAs
  isEntryWord : IsEntryWord name

/-- What stands between the two names. -/
def Alias.separator (a : Alias) : Text :=
  a.beforeAs ++ asWord ++ a.behindAs

/-- A name, perhaps with another one, and blanks around it. -/
structure Entry where
  before : Text
  name : Text
  renamed : Option Alias
  behind : Text
  before_blank : ∀ c ∈ before, isBlank c = true
  isEntryWord : IsEntryWord name
  behind_blank : ∀ c ∈ behind, isBlank c = true

namespace Entry

def text (e : Entry) : Text :=
  e.before ++ e.name ++ (e.renamed.map fun a => a.separator ++ a.name).getD [] ++ e.behind

/-- The binding that an entry spells which begins at an offset. -/
def binding (offset : Nat) (e : Entry) : Binding :=
  match e.renamed with
  | none => ⟨e.name, e.name, none⟩
  | some a => ⟨e.name, a.name, some ⟨offset + Text.size (e.before ++ e.name),
      offset + Text.size (e.before ++ e.name ++ a.separator)⟩⟩

theorem comma_notMem (e : Entry) : ',' ∉ e.text := by
  have hbefore := comma_notMem_of_blank e.before_blank
  have hbehind := comma_notMem_of_blank e.behind_blank
  cases h : e.renamed with
  | none => simp [text, h, hbefore, hbehind, e.isEntryWord.comma]
  | some a =>
    have hgap := comma_notMem_of_blank a.beforeAs_gap.blank
    have hgap' := comma_notMem_of_blank a.behindAs_gap.blank
    simp [text, h, Alias.separator, hbefore, hbehind, hgap, hgap', e.isEntryWord.comma,
      a.isEntryWord.comma, isEntryWord_asWord.comma]

theorem not_blank (e : Entry) : e.text.all isBlank = false := by
  obtain ⟨c, hc⟩ := List.exists_mem_of_ne_nil _ e.isEntryWord.ne_nil
  refine List.all_eq_false.mpr ⟨c, ?_, by simp [e.isEntryWord.solid c hc]⟩
  simp [text, hc]

theorem behind_head (e : Entry) : ∀ c ∈ e.behind.head?, isBlank c = true :=
  fun c hc => e.behind_blank c (List.mem_of_mem_head? hc)

/-- An entry is read as its binding. -/
theorem ofEntry_text (e : Entry) (offset : Nat) :
    Binding.ofEntry offset e.text = .ok (e.binding offset) := by
  have hbehind : ∀ o, Text.occurrencesFrom Text.word? o 0 e.behind = [] := by
    intro o
    rw [← List.append_nil e.behind, Text.words_blanks e.behind_blank]
    rfl
  unfold Binding.ofEntry text binding
  cases e.renamed with
  | none =>
    rw [Option.map_none, Option.getD_none, List.append_nil, List.append_assoc,
      Text.words_blanks e.before_blank,
      Text.words_word e.isEntryWord.ne_nil e.isEntryWord.solid e.behind_head, hbehind]
  | some a =>
    have htext : e.before ++ e.name ++ (((some a).map fun a => a.separator ++ a.name).getD []) ++
        e.behind = e.before ++ (e.name ++ (a.beforeAs ++ (asWord ++ (a.behindAs ++
          (a.name ++ e.behind))))) := by
      simp only [Option.map_some, Option.getD_some, Alias.separator, List.append_assoc]
    rw [htext, Text.words_blanks e.before_blank,
      Text.words_word e.isEntryWord.ne_nil e.isEntryWord.solid (a.beforeAs_gap.head_blank _),
      Text.words_blanks a.beforeAs_gap.blank,
      Text.words_word isEntryWord_asWord.ne_nil isEntryWord_asWord.solid
        (a.behindAs_gap.head_blank _),
      Text.words_blanks a.behindAs_gap.blank,
      Text.words_word a.isEntryWord.ne_nil a.isEntryWord.solid e.behind_head, hbehind]
    simp only [if_true, Text.Occurrence.stop, Alias.separator, Text.size_append, Nat.add_assoc]

end Entry

/-- Nothing else is read. -/
theorem exists_entry (h : Binding.ofEntry offset t = .ok b) (hcomma : ',' ∉ t) :
    ∃ e : Entry, e.text = t := by
  unfold Binding.ofEntry at h
  split at h
  case h_1 name hwords =>
    obtain ⟨gap, rest, rfl, hgap, hne, hsolid, -, hrest⟩ := Text.exists_of_words_cons hwords
    simp only [List.mem_append, not_or] at hcomma
    refine ⟨⟨gap, name.text, none, rest, hgap, ⟨hne, hsolid, hcomma.2.1⟩,
      Text.blank_of_no_words hrest⟩, ?_⟩
    simp [Entry.text]
  case h_2 name separator other hwords =>
    split at h
    · rename_i has
      obtain ⟨gap, rest, rfl, hgap, hne, hsolid, hhead, hrest⟩ := Text.exists_of_words_cons hwords
      obtain ⟨gap₁, rest₁, rfl, hgap₁, hne₁, hsolid₁, hhead₁, hrest₁⟩ :=
        Text.exists_of_words_cons hrest
      obtain ⟨gap₂, rest₂, rfl, hgap₂, hne₂, hsolid₂, -, hrest₂⟩ :=
        Text.exists_of_words_cons hrest₁
      simp only [List.mem_append, not_or] at hcomma
      obtain ⟨-, hname, -, -, -, hother, -⟩ := hcomma
      refine ⟨⟨gap, name.text, some ⟨gap₁, gap₂, other.text,
        isGap_of_head_blank hgap₁ hne₁ hsolid₁ hhead, isGap_of_head_blank hgap₂ hne₂ hsolid₂ hhead₁,
        ⟨hne₂, hsolid₂, hother⟩⟩, rest₂, hgap, ⟨hne, hsolid, hname⟩,
        Text.blank_of_no_words hrest₂⟩, ?_⟩
      simp [Entry.text, Alias.separator, has]
    · cases h
  case h_3 => cases h

/-- The bindings of entries, the first of which begins at an offset. -/
def bindingsOf (offset : Nat) : List Entry → List Binding
  | [] => []
  | e :: entries => e.binding offset :: bindingsOf (offset + e.text.size + 1) entries

/-- At least one entry, and perhaps a comma with blanks behind the last. -/
structure Grammar where
  entries : List Entry
  closing : Option Text
  entries_ne_nil : entries ≠ []
  closing_blank : ∀ t ∈ closing, ∀ c ∈ t, isBlank c = true

/-- Entries are read one after the other, and the blanks behind the last comma are none. -/
theorem bindingsFrom_entries {closing : Option Text} (entries : List Entry)
    (hclosing : ∀ t ∈ closing, ∀ c ∈ t, isBlank c = true)
    (hbehind : entries = [] → behindOther = true) :
    bindingsFrom offset behindOther (entries.map Entry.text ++ closing.toList) =
      .ok (bindingsOf offset entries) := by
  induction entries generalizing offset behindOther with
  | nil =>
    cases closing with
    | none => rfl
    | some t =>
      have ht : t.all isBlank = true := List.all_eq_true.mpr (hclosing t rfl)
      simp [bindingsFrom, ht, hbehind rfl, bindingsOf]
  | cons e entries ih =>
    rw [List.map_cons, List.cons_append, bindingsFrom, e.not_blank, e.ofEntry_text, bindingsOf]
    simp only [Bool.false_eq_true, if_false, bind, Except.bind]
    rw [ih fun _ => rfl]
    rfl

/-- Nothing else is read, and blanks count as behind the last comma only if an entry is before. -/
theorem exists_entries {pieces : List Text}
    (h : bindingsFrom offset behindOther pieces = .ok bindings) (hcomma : ∀ p ∈ pieces, ',' ∉ p) :
    ∃ (entries : List Entry) (closing : Option Text),
      pieces = entries.map Entry.text ++ closing.toList ∧
      (∀ t ∈ closing, ∀ c ∈ t, isBlank c = true) ∧
      (pieces ≠ [] → entries = [] → behindOther = true) := by
  induction pieces generalizing offset behindOther bindings with
  | nil => exact ⟨[], none, rfl, by simp, fun h => absurd rfl h⟩
  | cons p pieces ih =>
    rcases bindingsFrom_cons h with ⟨rfl, hbehind, hblank, -⟩ | ⟨b, bs, hb, hbs, -⟩
    · exact ⟨[], some p, rfl, fun t ht => by
        obtain rfl := Option.some.inj ht
        exact List.all_eq_true.mp hblank, fun _ _ => hbehind⟩
    · obtain ⟨e, rfl⟩ := exists_entry hb (hcomma p List.mem_cons_self)
      obtain ⟨entries, closing, rfl, hclosing, -⟩ :=
        ih hbs fun q hq => hcomma q (List.mem_cons_of_mem _ hq)
      exact ⟨e :: entries, closing, rfl, hclosing, fun _ hnil => absurd hnil (by simp)⟩

namespace Grammar

/-- What stands between the braces. -/
def interior (g : Grammar) : Text :=
  List.intercalate [','] (g.entries.map Entry.text ++ g.closing.toList)

theorem pieces_interior (g : Grammar) :
    g.interior.pieces [','] = g.entries.map Entry.text ++ g.closing.toList := by
  refine Text.pieces_intercalate (by simp [g.entries_ne_nil]) fun p hp => ?_
  rcases List.mem_append.mp hp with hp | hp
  · obtain ⟨e, -, rfl⟩ := List.mem_map.mp hp
    exact e.comma_notMem
  · exact comma_notMem_of_blank (g.closing_blank p (Option.mem_toList.mp hp))

theorem readClause_interior (g : Grammar) (offset : Nat) :
    readClause offset g.interior = .ok (bindingsOf offset g.entries) := by
  rw [readClause, g.pieces_interior]
  exact bindingsFrom_entries g.entries g.closing_blank fun h => absurd h g.entries_ne_nil

end Grammar

/-- A clause is read as bindings exactly if it is a list of entries that spell them. -/
theorem readClause_eq_ok_iff {interior : Text} : readClause offset interior = .ok bindings ↔
    ∃ g : Grammar, g.interior = interior ∧ bindings = bindingsOf offset g.entries := by
  constructor
  · intro h
    have hpieces : interior.pieces [','] ≠ [] := Text.pieces_ne_nil interior [',']
    obtain ⟨entries, closing, hsplit, hclosing, hbehind⟩ :=
      exists_entries h fun p hp => Text.notMem_of_mem_pieces hp
    have hne : entries ≠ [] := fun hnil => absurd (hbehind hpieces hnil) (by simp)
    let g : Grammar := ⟨entries, closing, hne, hclosing⟩
    have hg : g.interior = interior := by
      rw [← Text.intercalate_pieces (List.cons_ne_nil ',' []) interior, hsplit]
      rfl
    refine ⟨g, hg, ?_⟩
    rw [← hg, g.readClause_interior] at h
    exact (Except.ok.inj h).symm
  · rintro ⟨g, rfl, rfl⟩
    exact g.readClause_interior offset

theorem intercalate_head (p : Text) (ps : List Text) :
    ∃ tail, List.intercalate [','] (p :: ps) = p ++ tail := by
  obtain ⟨tail, htail⟩ := Text.head_isPrefix_intercalate [','] p ps
  exact ⟨tail, htail.symm⟩

/-- The separator of an entry stands between its names. -/
theorem Entry.exists_separator {e : Entry} (h : (e.binding offset).separator = some s) :
    ∃ (a : Alias) (p q : Text),
      e.text = p ++ (e.binding offset).exported ++ a.separator ++
        (e.binding offset).localName ++ q ∧
      (e.binding offset).localName ≠ [] ∧
      s.start = offset + Text.size (p ++ (e.binding offset).exported) ∧
      s.stop = s.start + a.separator.size := by
  cases hr : e.renamed with
  | none => simp [binding, hr] at h
  | some a =>
    simp only [binding, hr, Option.some.injEq] at h ⊢
    subst h
    refine ⟨a, e.before, e.behind, ?_, a.isEntryWord.ne_nil, rfl, ?_⟩
    · simp [text, hr]
    · rw [Text.size_append (e.before ++ e.name), Nat.add_assoc]

theorem exists_separator {entries : List Entry} (rest : List Text)
    (hb : b ∈ bindingsOf offset entries) (hs : b.separator = some s) :
    ∃ (a : Alias) (p q : Text), List.intercalate [','] (entries.map Entry.text ++ rest) =
        p ++ b.exported ++ a.separator ++ b.localName ++ q ∧ b.localName ≠ [] ∧
      s.start = offset + Text.size (p ++ b.exported) ∧ s.stop = s.start + a.separator.size := by
  induction entries generalizing offset with
  | nil => cases hb
  | cons e entries ih =>
    rcases List.mem_cons.mp hb with rfl | hb
    · obtain ⟨a, p, q, htext, hne, hstart, hstop⟩ := Entry.exists_separator hs
      obtain ⟨tail, htail⟩ := intercalate_head e.text (entries.map Entry.text ++ rest)
      refine ⟨a, p, q ++ tail, ?_, hne, hstart, hstop⟩
      rw [List.map_cons, List.cons_append, htail, htext]
      simp only [List.append_assoc]
    · obtain ⟨a, p, q, htext, hne, hstart, hstop⟩ := ih hb
      have hmore : entries.map Entry.text ++ rest ≠ [] := by
        cases entries with
        | nil => cases hb
        | cons e' entries => exact List.cons_ne_nil _ _
      refine ⟨a, e.text ++ [','] ++ p, q, ?_, hne, ?_, hstop⟩
      · rw [List.map_cons, List.cons_append, Text.intercalate_cons hmore, htext]
        simp only [List.append_assoc]
      · have hcomma : Text.size [','] = 1 := rfl
        rw [hstart]
        simp only [Text.size_append, hcomma]
        omega

/-- The separator of a binding in the clause of some code: what stands between its two names, the
word `as` with blanks on both sides. -/
structure Separates (code : Text) (clause : Span) (b : Binding) (s : Span) : Prop where
  between : ∃ p separator q, code = p ++ b.exported ++ separator ++ b.localName ++ q ∧
    s.start = Text.size (p ++ b.exported) ∧ s.stop = Text.size (p ++ b.exported ++ separator)
  spelled : ∃ beforeAs behindAs, IsGap beforeAs ∧ IsGap behindAs ∧
    code.slice s.start s.stop = beforeAs ++ asWord ++ behindAs
  boundaries : code.isBoundary s.start = true ∧ code.isBoundary s.stop = true
  inside : clause.start < s.start ∧ s.start < s.stop ∧ s.stop < clause.stop

/-- A clause with its braces. -/
def braced (interior : Text) : Text :=
  '\x7b' :: interior ++ ['\x7d']

/-- The separator of a binding in its place in the code. -/
theorem Grammar.separates (g : Grammar) (before after : Text)
    (hb : b ∈ bindingsOf (before.size + 1) g.entries) (hs : b.separator = some s) :
    Separates (before ++ braced g.interior ++ after)
      ⟨before.size, Text.size (before ++ braced g.interior)⟩ b s := by
  obtain ⟨a, p, q, htext, hne, hstart, hstop⟩ := exists_separator g.closing.toList hb hs
  have hbrace : Text.size ['\x7b'] = 1 := rfl
  have hclause : before ++ braced g.interior = (before ++ ['\x7b'] ++ p) ++ b.exported ++
      a.separator ++ (b.localName ++ (q ++ ['\x7d'])) := by
    rw [braced, interior, htext]
    simp only [List.append_assoc, List.cons_append, List.nil_append]
  have hstart' : s.start = Text.size ((before ++ ['\x7b'] ++ p) ++ b.exported) := by
    simp only [hstart, Text.size_append, hbrace]
    omega
  have hstop' : s.stop = Text.size ((before ++ ['\x7b'] ++ p) ++ b.exported ++ a.separator) := by
    rw [hstop, hstart', Text.size_append _ a.separator]
  constructor
  case between =>
    refine ⟨before ++ ['\x7b'] ++ p, a.separator, q ++ ['\x7d'] ++ after, ?_, hstart', hstop'⟩
    rw [hclause]
    simp only [List.append_assoc]
  case spelled =>
    refine ⟨a.beforeAs, a.behindAs, a.beforeAs_gap, a.behindAs_gap, ?_⟩
    rw [hstop, hstart', hclause, List.append_assoc _ _ after]
    exact Text.slice_size_append _ a.separator _
  case boundaries =>
    rw [hstart', hstop', hclause, List.append_assoc _ _ after]
    refine ⟨?_, Text.isBoundary_size_append _ _⟩
    rw [List.append_assoc _ a.separator]
    exact Text.isBoundary_size_append _ _
  case inside =>
    have hsolid : 0 < Text.size a.separator :=
      Text.size_pos (by simp [Alias.separator, a.beforeAs_gap.ne_nil])
    have hname := Text.size_pos hne
    rw [hclause, Text.size_append _ (b.localName ++ _), ← hstop', Text.size_append b.localName]
    dsimp only
    omega

/-- The occurrence of a statement with a clause. -/
def occurrence (start : Nat) (text interior module : Text) : Text.Occurrence Parts :=
  ⟨start, text, ⟨braced interior, module⟩⟩

/-- A statement takes its bindings from its clause, or its failure. -/
theorem Statement.ofOccurrence_braced (start : Nat) (text interior module : Text) :
    ofOccurrence (occurrence start text interior module) =
      match readClause (start + clauseOffset + 1) interior with
      | .error fault => .error (.malformedClause module (braced interior) fault)
      | .ok bindings => .ok ⟨⟨start, start + text.size⟩,
          ⟨start + clauseOffset, start + clauseOffset + Text.size (braced interior)⟩, ⟨module⟩,
          bindings⟩ := by
  have hinterior : (List.drop 1 (braced interior)).dropLast = interior := List.dropLast_concat
  unfold ofOccurrence
  dsimp only [occurrence]
  rw [hinterior]
  rfl

/-- How the clause between two parts of code is read. Its bindings are those of its entries, with
separators that stand in the clause one behind the other, and what is no list of entries is a
failure that names the clause. -/
structure ReadsEntries (before interior after : Text) : Prop where
  read_iff : ∀ bindings, readClause (before.size + 1) interior = .ok bindings ↔
    ∃ g : Grammar, g.interior = interior ∧ bindings = bindingsOf (before.size + 1) g.entries
  accepted : ∀ g : Grammar, g.interior = interior → ∀ start text module, ∃ s,
    Statement.ofOccurrence (occurrence start text interior module) = .ok s ∧
      s.bindings = bindingsOf (s.clause.start + 1) g.entries
  refused : (∀ g : Grammar, g.interior ≠ interior) → ∀ start text module, ∃ fault,
    Statement.ofOccurrence (occurrence start text interior module) =
      .error (.malformedClause module (braced interior) fault)
  separates : ∀ bindings, readClause (before.size + 1) interior = .ok bindings →
    ∀ b ∈ bindings, ∀ s, b.separator = some s →
      Separates (before ++ braced interior ++ after)
        ⟨before.size, Text.size (before ++ braced interior)⟩ b s
  ordered : ∀ bindings, readClause (before.size + 1) interior = .ok bindings →
    (separators bindings).Pairwise fun s r => s.stop ≤ r.start

/-- A clause is read exactly by the grammar of its entries, wherever it stands. -/
theorem clause_reads_entries (before interior after : Text) :
    ReadsEntries before interior after := by
  constructor
  case read_iff => exact fun bindings => readClause_eq_ok_iff
  case accepted =>
    rintro g rfl start text module
    rw [Statement.ofOccurrence_braced, g.readClause_interior]
    exact ⟨_, rfl, rfl⟩
  case refused =>
    intro hno start text module
    rw [Statement.ofOccurrence_braced]
    cases hread : readClause (start + clauseOffset + 1) interior with
    | error fault => exact ⟨fault, rfl⟩
    | ok bindings =>
      obtain ⟨g, hg, -⟩ := readClause_eq_ok_iff.mp hread
      exact absurd hg (hno g)
  case separates =>
    intro bindings hread b hb s hs
    obtain ⟨g, rfl, rfl⟩ := readClause_eq_ok_iff.mp hread
    exact g.separates before after hb hs
  case ordered =>
    intro bindings hread
    exact (inner_interior hread).marks.ordered

end Import
end GadgetBuild
