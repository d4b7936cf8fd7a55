import GadgetBuild.Import.Clause
import GadgetBuild.Proofs.Text.Front
import GadgetBuild.Proofs.Text.Occurrences
import GadgetBuild.Proofs.Text.Pieces
import GadgetBuild.Proofs.Text.Splice

/-!
Where the separators of a clause stand: between two names of one entry, and so with text before,
between and behind them.
-/

namespace GadgetBuild

namespace Text

theorem sound_word? : Sound word? where
  front {t found value} h := by
    unfold word? at h
    split at h
    · cases h
    · rename_i hw
      obtain ⟨rfl, _⟩ := Prod.mk.inj (Option.some.inj h)
      exact ⟨_, (List.takeWhile_append_dropWhile).symm⟩
  solid {t found value} h := by
    unfold word? at h
    split at h
    · cases h
    · rename_i hw
      obtain ⟨rfl, _⟩ := Prod.mk.inj (Option.some.inj h)
      exact hw

end Text

namespace Import

/-- The separators of bindings, in their order. -/
def separators (bindings : List Binding) : List Span :=
  bindings.filterMap (·.separator)

/-- The separator of an entry is what stands between two words of it. -/
theorem Binding.ofEntry_separator (h : ofEntry offset entry = .ok b) (hs : b.separator = some s) :
    ∃ p m q, entry = p ++ (m ++ q) ∧ p ≠ [] ∧ m ≠ [] ∧ s.start = offset + Text.size p ∧
      s.stop = s.start + Text.size m := by
  unfold ofEntry at h
  split at h
  · cases h
    cases hs
  · rename_i name separator other hwords
    split at h
    · cases h
      cases hs
      obtain ⟨g₀, r₀, rfl, hname, -, hmatch, hrest⟩ :=
        Text.sound_word?.occurrencesFrom_eq_cons hwords
      obtain ⟨g₁, r₁, rfl, hsep, -, hmatch', hrest⟩ :=
        Text.sound_word?.occurrencesFrom_eq_cons hrest
      obtain ⟨g₂, r₂, rfl, hother, -, -, -⟩ := Text.sound_word?.occurrencesFrom_eq_cons hrest
      have hne := Text.sound_word?.solid hmatch
      have hne' := Text.sound_word?.solid hmatch'
      refine ⟨g₀ ++ name.text, g₁ ++ (separator.text ++ g₂), other.text ++ r₂, by simp, ?_, ?_,
        ?_, ?_⟩
      · simp [hne]
      · simp [hne']
      · rw [Text.size_append, ← Nat.add_assoc, ← hname]
        rfl
      · change other.start = name.stop + _
        rw [hother, Text.Occurrence.stop, hsep, Text.size_append, Text.size_append]
        omega
    · cases h
  · cases h

/-- Bindings of entries come from the first entry and from the others, unless it is the blank behind
a comma at the end. -/
theorem bindingsFrom_cons (h : bindingsFrom offset behind (entry :: entries) = .ok bindings) :
    (entries = [] ∧ behind = true ∧ entry.all isBlank = true ∧ bindings = []) ∨
      ∃ b bs, Binding.ofEntry offset entry = .ok b ∧
        bindingsFrom (offset + entry.size + 1) true entries = .ok bs ∧ bindings = b :: bs := by
  unfold bindingsFrom at h
  split at h
  · rename_i hblank
    split at h
    · rename_i hlast
      cases h
      exact Or.inl ⟨hlast.1, hlast.2, hblank, rfl⟩
    · cases h
  · cases hb : Binding.ofEntry offset entry with
    | error fault =>
      rw [hb] at h
      cases h
    | ok b =>
      cases hbs : bindingsFrom (offset + entry.size + 1) true entries with
      | error fault =>
        rw [hb, hbs] at h
        cases h
      | ok bs =>
        rw [hb, hbs] at h
        cases h
        exact Or.inr ⟨b, bs, rfl, rfl, rfl⟩

/-- The separators stand apart in the entries as they are joined by commas, and before what closes
the clause. -/
theorem inner_separators {entries : List Text} {tail : Text} (ht : tail ≠ [])
    (h : bindingsFrom offset behind entries = .ok bindings) :
    Text.Inner offset (separators bindings) (List.intercalate [','] entries ++ tail) := by
  induction entries generalizing offset behind bindings with
  | nil =>
    cases h
    simpa [separators, Text.Inner] using ht
  | cons entry entries ih =>
    rcases bindingsFrom_cons h with ⟨-, -, -, rfl⟩ | ⟨b, bs, hb, hbs, rfl⟩
    · simp [separators, Text.Inner, ht]
    · have hrest : ∃ rest, List.intercalate [','] (entry :: entries) ++ tail = entry ++ rest ∧
          Text.Inner (offset + entry.size) (separators bs) rest := by
        cases entries with
        | nil =>
          cases hbs
          exact ⟨tail, by simp, ht⟩
        | cons next entries =>
          refine ⟨[','] ++ (List.intercalate [','] (next :: entries) ++ tail), ?_, ?_⟩
          · simp [List.intercalate_cons_cons]
          · exact Text.Inner.append_left (ih hbs)
      obtain ⟨rest, he, hinner⟩ := hrest
      rw [he]
      cases hsep : b.separator with
      | none =>
        rw [separators, List.filterMap_cons_none hsep]
        exact hinner.append_left
      | some s =>
        rw [separators, List.filterMap_cons_some hsep]
        obtain ⟨p, m, q, rfl, hp, hm, hstart, hstop⟩ := Binding.ofEntry_separator hb hsep
        refine ⟨p, m, q ++ rest, by simp, hp, hm, hstart, hstop, Text.Inner.append_left ?_⟩
        rw [Text.size_append, Text.size_append] at hinner
        rwa [show s.stop + Text.size q = offset + (p.size + (m.size + q.size)) by omega]

/-- The separators stand apart between the braces. -/
theorem inner_interior {interior : Text} (h : readClause offset interior = .ok bindings) :
    Text.Inner offset (separators bindings) (interior ++ ['\x7d']) := by
  have hin := inner_separators (List.cons_ne_nil '\x7d' []) h
  rwa [Text.intercalate_pieces (by simp)] at hin

/-- The separators of a clause with its braces stand apart, and apart from the braces. -/
theorem inner_readClause {interior : Text} (h : readClause (offset + 1) interior = .ok bindings) :
    Text.Inner offset (separators bindings) ('\x7b' :: interior ++ ['\x7d']) :=
  Text.Inner.append_left (p := ['\x7b']) (inner_interior h)

/-- A character of an entry is blank, one of the word `as`, or one of a name. -/
theorem Binding.mem_ofEntry (h : ofEntry offset entry = .ok b) (hc : c ∈ entry) :
    isBlank c = true ∨ c ∈ asWord ∨ c ∈ b.exported ∨ c ∈ b.localName := by
  by_cases hblank : isBlank c = true
  · exact Or.inl hblank
  · right
    obtain ⟨p, q, rfl⟩ := List.append_of_mem hc
    have hword : (c :: q).takeWhile (fun d => !isBlank d) =
        c :: q.takeWhile fun d => !isBlank d :=
      List.takeWhile_cons_of_pos (by simp [hblank])
    obtain ⟨o, ho, hco⟩ := Text.sound_word?.exists_mem offset p (c := c) (q := q)
      (by rw [Text.word?, hword])
    unfold ofEntry at h
    split at h
    · rename_i name hwords
      cases h
      rw [hwords, List.mem_singleton] at ho
      exact Or.inr (Or.inl (ho ▸ hco))
    · rename_i name separator other hwords
      split at h
      · rename_i has
        cases h
        rw [hwords] at ho
        simp only [List.mem_cons, List.not_mem_nil, or_false] at ho
        rcases ho with rfl | rfl | rfl
        · exact Or.inr (Or.inl hco)
        · exact Or.inl (has ▸ hco)
        · exact Or.inr (Or.inr hco)
      · cases h
    · cases h

theorem mem_bindingsFrom {entries : List Text}
    (h : bindingsFrom offset behind entries = .ok bindings) (hp : p ∈ entries) (hc : c ∈ p) :
    isBlank c = true ∨ c ∈ asWord ∨ ∃ b ∈ bindings, c ∈ b.exported ∨ c ∈ b.localName := by
  induction entries generalizing offset behind bindings with
  | nil => cases hp
  | cons entry entries ih =>
    rcases bindingsFrom_cons h with ⟨rfl, -, hblank, -⟩ | ⟨b, bs, hb, hbs, rfl⟩
    · obtain rfl := List.mem_singleton.mp hp
      exact Or.inl (List.all_eq_true.mp hblank c hc)
    · rcases List.mem_cons.mp hp with rfl | hp
      · exact (Binding.mem_ofEntry hb hc).imp_right fun hc =>
          hc.imp_right fun hc => ⟨b, List.mem_cons_self, hc⟩
      · exact (ih hbs hp).imp_right fun hc =>
          hc.imp_right fun ⟨b', hb', hc⟩ => ⟨b', List.mem_cons_of_mem _ hb', hc⟩

/-- A character between the braces is a comma or blank, one of the word `as`, or one of a name. -/
theorem mem_readClause {interior : Text} (h : readClause offset interior = .ok bindings)
    (hc : c ∈ interior) : c = ',' ∨ isBlank c = true ∨ c ∈ asWord ∨
      ∃ b ∈ bindings, c ∈ b.exported ∨ c ∈ b.localName := by
  rw [← Text.intercalate_pieces (List.cons_ne_nil ',' []) interior] at hc
  rcases Text.exists_of_mem_intercalate hc with hc | ⟨p, hp, hc⟩
  · exact Or.inl (List.mem_singleton.mp hc)
  · exact Or.inr (mem_bindingsFrom h hp hc)

end Import
end GadgetBuild
