import GadgetBuild.Chunk
import GadgetBuild.Proofs.Text.Front
import GadgetBuild.Proofs.Text.Occurrences

/-!
Dynamic imports as they are recognised: the call, at least one character of its line, and the first
end of a path behind that.
-/

namespace GadgetBuild.Chunk

def extension : Text := ".cjs".toList

/-- The extension, a closing quote, and the closing parenthesis with at most one blank before. -/
def IsPathEnd (e : Text) : Prop :=
  ∃ quote tail, (quote = '"' ∨ quote = '\'') ∧
    (tail = [')'] ∨ ∃ b, isBlank b = true ∧ tail = [b, ')']) ∧ e = extension ++ quote :: tail

theorem pathEnd?_eq_some_iff {t : Text} :
    pathEnd? t = some e ↔ IsPathEnd e ∧ ∃ rest, t = e ++ rest := by
  unfold pathEnd?
  change (Text.after? extension t).bind _ = some e ↔ _
  constructor
  · intro h
    obtain ⟨u, hu, hrest⟩ := Option.bind_eq_some_iff.mp h
    rw [Text.after?_eq_some_iff] at hu
    subst hu
    clear h
    split at hrest
    · rename_i q u
      dsimp only at hrest
      split at hrest
      · cases hrest
      · rename_i hq
        have hq : q = '"' ∨ q = '\'' := by
          rwa [not_and_or, not_not, not_not] at hq
        split at hrest
        · obtain rfl := Option.some.inj hrest
          exact ⟨⟨q, _, hq, Or.inl rfl, rfl⟩, _, rfl⟩
        · rename_i b rest _
          split at hrest
          · rename_i hb
            obtain rfl := Option.some.inj hrest
            exact ⟨⟨q, _, hq, Or.inr ⟨b, hb, rfl⟩, rfl⟩, rest, rfl⟩
          · cases hrest
        · cases hrest
    · cases hrest
  · rintro ⟨⟨q, tail, hq, htail, rfl⟩, rest, rfl⟩
    rw [List.append_assoc, Text.after?_append, Option.bind_some]
    have hquote : ¬ (q ≠ '"' ∧ q ≠ '\'') := by
      rwa [not_and_or, not_not, not_not]
    dsimp only [List.cons_append]
    rw [if_neg hquote]
    rcases htail with rfl | ⟨b, hb, rfl⟩
    · rfl
    · have hne : b ≠ ')' := by
        rintro rfl
        cases hb
      simp only [List.cons_append, List.nil_append]
      exact if_pos hb

/-- Nothing in an end of a path can be taken for the beginning of a call. -/
theorem IsPathEnd.notMem (h : IsPathEnd e) : 'i' ∉ e := by
  obtain ⟨q, tail, hq, htail, rfl⟩ := h
  have hext : 'i' ∉ extension := by decide
  have hquote : 'i' ≠ q := by
    rintro rfl
    rcases hq with hq | hq <;> cases hq
  have htail : 'i' ∉ tail := by
    rcases htail with rfl | ⟨b, hb, rfl⟩
    · decide
    · have hne : 'i' ≠ b := by
        rintro rfl
        cases hb
      simp [hne]
  simp [hext, hquote, htail]

/-- An end of a path does not reach into a call behind it. -/
theorem pathEnd?_append_call (t u : Text) : pathEnd? (t ++ 'i' :: u) = pathEnd? t := by
  cases he : pathEnd? (t ++ 'i' :: u) with
  | none =>
    cases ht : pathEnd? t with
    | none => rfl
    | some e =>
      obtain ⟨hend, rest, rfl⟩ := pathEnd?_eq_some_iff.mp ht
      have := pathEnd?_eq_some_iff.mpr ⟨hend, rest ++ 'i' :: u, List.append_assoc e rest _⟩
      rw [he] at this
      cases this
  | some e =>
    obtain ⟨hend, rest, hrest⟩ := pathEnd?_eq_some_iff.mp he
    obtain ⟨m, rfl⟩ := Text.exists_append_of_notMem hrest.symm hend.notMem
    exact (pathEnd?_eq_some_iff.mpr ⟨hend, m, rfl⟩).symm

/-- One character of the search: it belongs to the path, and the end stands behind it or further. -/
theorem nearestPathEnd?_cons {t : Text} : nearestPathEnd? (c :: t) = some (before, e) ↔
    c ≠ '\n' ∧ ((before = [c] ∧ pathEnd? t = some e) ∨
      ∃ b, before = c :: b ∧ pathEnd? t = none ∧ nearestPathEnd? t = some (b, e)) := by
  rw [nearestPathEnd?]
  by_cases hc : c = '\n'
  · simp [hc]
  rw [if_neg hc]
  cases pathEnd? t with
  | some e' => simp [hc, eq_comm]
  | none =>
    simp only [Option.map_eq_some_iff, Prod.exists, Prod.mk.injEq]
    constructor
    · rintro ⟨b, e', hb, rfl, rfl⟩
      exact ⟨hc, Or.inr ⟨b, rfl, trivial, hb⟩⟩
    · rintro ⟨-, ⟨-, hnone⟩ | ⟨b, rfl, -, hb⟩⟩
      · cases hnone
      · exact ⟨b, e, hb, rfl, rfl⟩

/-- The characters before the nearest end of a path: at least one, none of them a line feed, and no
end before. -/
theorem nearestPathEnd?_eq_some_iff {t : Text} : nearestPathEnd? t = some (before, e) ↔
    before ≠ [] ∧ '\n' ∉ before ∧ ∃ rest, t = before ++ rest ∧ pathEnd? rest = some e ∧
      ∀ p q, before = p ++ q → p ≠ [] → q ≠ [] → pathEnd? (q ++ rest) = none := by
  induction t generalizing before with
  | nil =>
    simp only [nearestPathEnd?, reduceCtorEq, false_iff]
    rintro ⟨hne, -, rest, he, -⟩
    exact hne (List.append_eq_nil_iff.mp he.symm).1
  | cons c t ih =>
    rw [nearestPathEnd?_cons]
    constructor
    · rintro ⟨hc, ⟨rfl, he⟩ | ⟨b, rfl, hnone, hb⟩⟩
      · refine ⟨by simp, by simpa using Ne.symm hc, t, rfl, he, fun p q hpq hp hq => ?_⟩
        rcases List.append_eq_singleton_iff.mp hpq.symm with ⟨rfl, -⟩ | ⟨-, rfl⟩
        · exact absurd rfl hp
        · exact absurd rfl hq
      · obtain ⟨hne, hfeed, rest, rfl, he, hleast⟩ := ih.mp hb
        refine ⟨by simp, by simp [Ne.symm hc, hfeed], rest, rfl, he, fun p q hpq hp hq => ?_⟩
        obtain ⟨d, p, rfl⟩ := List.exists_cons_of_ne_nil hp
        obtain ⟨-, rfl⟩ := List.cons.inj hpq
        by_cases hp : p = []
        · subst hp
          exact hnone
        · exact hleast p q rfl hp hq
    · rintro ⟨hne, hfeed, rest, he, hend, hleast⟩
      obtain ⟨d, b, rfl⟩ := List.exists_cons_of_ne_nil hne
      rw [List.cons_append] at he
      obtain ⟨rfl, rfl⟩ := List.cons.inj he
      refine ⟨fun hc => hfeed (hc ▸ List.mem_cons_self), ?_⟩
      by_cases hb : b = []
      · subst hb
        exact Or.inl ⟨rfl, hend⟩
      · refine Or.inr ⟨b, rfl, hleast [c] b rfl (by simp) hb, ih.mpr ⟨hb, ?_, rest, rfl, hend, ?_⟩⟩
        · exact fun h => hfeed (List.mem_cons_of_mem _ h)
        · exact fun p q hpq hp hq => hleast (c :: p) q (by rw [hpq]; rfl) (by simp) hq

/-- The search for an end of a path does not pass its line, so it does not reach a call behind. -/
theorem nearestPathEnd?_append_call (h : '\n' ∈ t) (u : Text) :
    nearestPathEnd? (t ++ 'i' :: u) = nearestPathEnd? t := by
  induction t with
  | nil => cases h
  | cons c t ih =>
    rw [List.cons_append, nearestPathEnd?, nearestPathEnd?, pathEnd?_append_call]
    by_cases hc : c = '\n'
    · rw [if_pos hc, if_pos hc]
    · rw [ih ((List.mem_cons.mp h).resolve_left (Ne.symm hc))]

/-- What a dynamic import begins with. -/
def importLead : Text := "import(".toList

theorem dynamicImport?_eq_some_iff {t : Text} : dynamicImport? t = some (found, value) ↔
    ∃ rest before e, t = importLead ++ rest ∧ nearestPathEnd? rest = some (before, e) ∧
      found = importLead ++ before ++ e ∧ value = Text.size (importLead ++ before ++ ['.']) := by
  unfold dynamicImport?
  change (Text.after? importLead t).bind (fun rest => (nearestPathEnd? rest).bind fun p =>
    some (importLead ++ p.1 ++ p.2, Text.size (importLead ++ p.1 ++ ['.']))) = _ ↔ _
  simp only [Option.bind_eq_some_iff, Text.after?_eq_some_iff, Prod.exists, Option.some.injEq,
    Prod.mk.injEq]
  constructor
  · rintro ⟨rest, ht, before, e, hend, rfl, rfl⟩
    exact ⟨rest, before, e, ht, hend, rfl, rfl⟩
  · rintro ⟨rest, before, e, ht, hend, rfl, rfl⟩
    exact ⟨rest, ht, before, e, hend, rfl, rfl⟩

/-- A call behind a text changes nothing of what is recognised in it, if each call in the text is
followed by the end of its line. -/
theorem dynamicImport?_append_call {t : Text} (ht : t ≠ [])
    (hline : ∀ rest, t = importLead ++ rest → '\n' ∈ rest) (u : Text) :
    dynamicImport? (t ++ 'i' :: u) = dynamicImport? t := by
  have hlead : importLead = 'i' :: "mport(".toList := rfl
  have hapart : Text.Apart "mport(".toList ('i' :: u) := Text.apart_of_notMem (by decide) u
  have hsame : ∀ found value, dynamicImport? (t ++ 'i' :: u) = some (found, value) ↔
      dynamicImport? t = some (found, value) := by
    intro found value
    simp only [dynamicImport?_eq_some_iff]
    constructor
    · rintro ⟨rest, before, e, he, hend, hfound⟩
      obtain ⟨c, t, rfl⟩ := List.exists_cons_of_ne_nil ht
      rw [hlead, List.cons_append, List.cons_append] at he
      obtain ⟨rfl, htail⟩ := List.cons.inj he
      obtain ⟨m, rfl, rfl⟩ := hapart.split htail
      rw [nearestPathEnd?_append_call (hline m rfl)] at hend
      exact ⟨m, before, e, rfl, hend, hfound⟩
    · rintro ⟨rest, before, e, rfl, hend, hfound⟩
      rw [← nearestPathEnd?_append_call (hline rest rfl) u] at hend
      exact ⟨_, before, e, List.append_assoc importLead rest _, hend, hfound⟩
  exact Option.ext fun x => hsame x.1 x.2

theorem sound_dynamicImport : Text.Sound dynamicImport? where
  front h := by
    obtain ⟨rest, before, e, rfl, hend, rfl, -⟩ := dynamicImport?_eq_some_iff.mp h
    obtain ⟨-, -, u, rfl, he, -⟩ := nearestPathEnd?_eq_some_iff.mp hend
    obtain ⟨-, v, rfl⟩ := pathEnd?_eq_some_iff.mp he
    exact ⟨v, by simp only [List.append_assoc]⟩
  solid h := by
    obtain ⟨rest, before, e, -, -, rfl, -⟩ := dynamicImport?_eq_some_iff.mp h
    have hlead : importLead ≠ [] := by decide
    simp [hlead]

/-- The offset that is told is that of the extension's first letter. -/
theorem exists_letter {t : Text} (h : dynamicImport? t = some (found, value)) :
    ∃ p q, found = p ++ 'c' :: q ∧ value = p.size := by
  obtain ⟨rest, before, e, -, hend, rfl, rfl⟩ := dynamicImport?_eq_some_iff.mp h
  obtain ⟨-, -, u, -, he, -⟩ := nearestPathEnd?_eq_some_iff.mp hend
  obtain ⟨⟨quote, tail, -, -, rfl⟩, -⟩ := pathEnd?_eq_some_iff.mp he
  have hext : extension = '.' :: 'c' :: ['j', 's'] := by decide
  exact ⟨importLead ++ before ++ ['.'], ['j', 's'] ++ quote :: tail, by simp [hext], rfl⟩

end GadgetBuild.Chunk
