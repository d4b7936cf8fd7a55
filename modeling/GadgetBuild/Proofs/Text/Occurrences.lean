import GadgetBuild.Proofs.Text.Offsets
import GadgetBuild.Text.Search

/-!
What a search from the left finds. A recogniser is sound when what it reports stands at the front
of the text and is not empty; its occurrences then follow each other, with text between them in
which it recognises nothing.
-/

namespace GadgetBuild.Text

/-- What the recogniser reports stands at the front of the text. -/
structure Sound (accept : Text → Option (Text × α)) : Prop where
  front : accept t = some (found, value) → ∃ rest, t = found ++ rest
  solid : accept t = some (found, value) → found ≠ []

variable {accept : Text → Option (Text × α)}

/-- Characters of the last occurrence are passed over. -/
theorem occurrencesFrom_skip (p t : Text) :
    occurrencesFrom accept offset p.length (p ++ t) =
      occurrencesFrom accept (offset + size p) 0 t := by
  induction p generalizing offset with
  | nil => rfl
  | cons c p ih =>
    rw [List.length_cons, List.cons_append, occurrencesFrom, ih, size_cons, Nat.add_assoc]

theorem Sound.occurrencesFrom_some (h : Sound accept) (ha : accept (p ++ t) = some (p, value)) :
    occurrencesFrom accept offset 0 (p ++ t) =
      ⟨offset, p, value⟩ :: occurrencesFrom accept (offset + size p) 0 t := by
  cases p with
  | nil => exact absurd rfl (h.solid ha)
  | cons c p =>
    rw [List.cons_append] at ha ⊢
    rw [occurrencesFrom, ha]
    simp only [List.length_cons, Nat.add_sub_cancel]
    rw [occurrencesFrom_skip, size_cons, Nat.add_assoc]

theorem occurrencesFrom_none (ha : accept (c :: t) = none) :
    occurrencesFrom accept offset 0 (c :: t) =
      occurrencesFrom accept (offset + c.utf8Size) 0 t := by
  rw [occurrencesFrom, ha]

/-- The recogniser accepts nowhere in the first text, when the second follows it. -/
def Silent (accept : Text → Option (Text × α)) (gap rest : Text) : Prop :=
  ∀ p q, gap = p ++ q → q ≠ [] → accept (q ++ rest) = none

theorem Silent.cons (hc : accept (c :: gap ++ rest) = none) (h : Silent accept gap rest) :
    Silent accept (c :: gap) rest := by
  intro p q he hq
  cases p with
  | nil =>
    rw [List.nil_append] at he
    rw [← he]
    exact hc
  | cons d p => exact h p q (List.cons.inj he).2 hq

/-- The first occurrence, with nothing recognised before it, and then the others. -/
theorem Sound.occurrencesFrom_eq_cons (h : Sound accept)
    (ho : occurrencesFrom accept offset 0 t = o :: os) :
    ∃ gap rest, t = gap ++ (o.text ++ rest) ∧ o.start = offset + size gap ∧
      Silent accept gap (o.text ++ rest) ∧ accept (o.text ++ rest) = some (o.text, o.value) ∧
      occurrencesFrom accept o.stop 0 rest = os := by
  induction t generalizing offset with
  | nil => cases ho
  | cons c t ih =>
    cases ha : accept (c :: t) with
    | none =>
      rw [occurrencesFrom_none ha] at ho
      obtain ⟨gap, rest, rfl, hstart, hsilent, hmatch, hrest⟩ := ih ho
      refine ⟨c :: gap, rest, rfl, ?_, hsilent.cons ha, hmatch, hrest⟩
      rw [size_cons, hstart, Nat.add_assoc]
    | some accepted =>
      obtain ⟨found, value⟩ := accepted
      obtain ⟨rest, he⟩ := h.front ha
      rw [he] at ho ha ⊢
      rw [h.occurrencesFrom_some ha] at ho
      obtain ⟨rfl, hrest⟩ := List.cons.inj ho
      refine ⟨[], rest, rfl, rfl, ?_, ha, hrest⟩
      intro p q he hq
      exact absurd (List.append_eq_nil_iff.mp he.symm).2 hq

theorem Sound.of_mem (h : Sound accept) (ho : o ∈ occurrencesFrom accept offset 0 t) :
    ∃ p rest, t = p ++ (o.text ++ rest) ∧ o.start = offset + size p ∧
      accept (o.text ++ rest) = some (o.text, o.value) := by
  generalize hos : occurrencesFrom accept offset 0 t = os at ho
  induction os generalizing offset t with
  | nil => cases ho
  | cons first os ih =>
    obtain ⟨gap, rest, rfl, hstart, -, hmatch, hrest⟩ := h.occurrencesFrom_eq_cons hos
    rcases List.mem_cons.mp ho with rfl | ho
    · exact ⟨gap, rest, rfl, hstart, hmatch⟩
    · obtain ⟨p, rest', rfl, hstart', hmatch'⟩ := ih hrest ho
      refine ⟨gap ++ (first.text ++ p), rest', by simp, ?_, hmatch'⟩
      rw [hstart', Occurrence.stop, hstart, size_append, size_append]
      omega

/-- Where the recogniser accepts, there is an occurrence, unless one that began before is still
being passed over. -/
theorem Sound.exists_occurrence (h : Sound accept) (offset : Nat) (p : Text)
    (ha : accept q = some (found, value)) :
    ∃ o ∈ occurrencesFrom accept offset 0 (p ++ q),
      o.start ≤ offset + size p ∧ offset + size p < o.stop := by
  -- Either nothing is accepted at the front, and one character is passed, or an occurrence is.
  induction hn : p.length using Nat.strongRecOn generalizing offset p with
  | ind n ih =>
    subst hn
    cases p with
    | nil =>
      obtain ⟨rest, rfl⟩ := h.front ha
      have := size_pos (h.solid ha)
      rw [List.nil_append, h.occurrencesFrom_some ha]
      refine ⟨_, List.mem_cons_self, Nat.le_refl _, ?_⟩
      simp only [Occurrence.stop, size_nil]
      omega
    | cons c p =>
      cases hf : accept (c :: p ++ q) with
      | none =>
        rw [List.cons_append] at hf ⊢
        rw [occurrencesFrom_none hf, size_cons, ← Nat.add_assoc]
        exact ih p.length (by simp) _ p rfl
      | some earlier =>
        obtain ⟨first, _⟩ := earlier
        obtain ⟨rest, he⟩ := h.front hf
        have hsolid := h.solid hf
        rw [he] at hf ⊢
        rw [h.occurrencesFrom_some hf]
        by_cases hle : size first ≤ size (c :: p)
        · obtain ⟨m, hp, rfl⟩ := append_of_size_le he.symm hle
          have hlen : m.length < (c :: p).length := by
            rw [hp, List.length_append]
            exact Nat.lt_add_of_pos_left (List.length_pos_iff.mpr hsolid)
          obtain ⟨o, ho, hpos⟩ := ih m.length hlen (offset + size first) m rfl
          refine ⟨o, List.mem_cons_of_mem _ ho, ?_⟩
          rw [hp, size_append]
          omega
        · refine ⟨_, List.mem_cons_self, Nat.le_add_right _ _, ?_⟩
          simp only [Occurrence.stop]
          omega

/-- A character of the text that is not passed over is in some occurrence. -/
theorem Sound.exists_mem (h : Sound accept) (offset : Nat) (p : Text)
    (ha : accept (c :: q) = some (found, value)) :
    ∃ o ∈ occurrencesFrom accept offset 0 (p ++ c :: q), c ∈ o.text := by
  obtain ⟨o, ho, hstart, hstop⟩ := h.exists_occurrence offset p ha
  refine ⟨o, ho, ?_⟩
  obtain ⟨u, rest, he, hu, -⟩ := h.of_mem ho
  obtain ⟨m, rfl, hm⟩ := append_of_size_le he.symm (by omega)
  rw [Occurrence.stop, hu, size_append] at hstop
  rcases List.append_eq_append_iff.mp hm with ⟨w, rfl, _⟩ | ⟨w, ho', hw⟩
  · rw [size_append] at hstop
    omega
  · cases w with
    | nil =>
      rw [ho', List.append_nil] at hstop
      omega
    | cons d w =>
      obtain ⟨rfl, _⟩ := List.cons.inj hw
      rw [ho']
      exact List.mem_append_right _ List.mem_cons_self

/-- A search finds nothing in a text of which the recogniser accepts no end. -/
theorem occurrencesFrom_eq_nil (h : ∀ p q, t = p ++ q → q ≠ [] → accept q = none) :
    occurrencesFrom accept offset 0 t = [] := by
  induction t generalizing offset with
  | nil => rfl
  | cons c t ih =>
    rw [occurrencesFrom_none (h [] (c :: t) rfl (by simp))]
    exact ih fun p q he hq => h (c :: p) q (by rw [he]; rfl) hq

/-- Where a text starts changes where its occurrences start. -/
theorem occurrencesFrom_add (offset k skip : Nat) (t : Text) :
    occurrencesFrom accept (offset + k) skip t =
      (occurrencesFrom accept offset skip t).map fun o => { o with start := o.start + k } := by
  fun_induction occurrencesFrom accept offset skip t with
  | case1 => simp [occurrencesFrom]
  | case2 offset skip c t ih => rw [occurrencesFrom, Nat.add_right_comm, ih]
  | case3 offset c t hc ih => rw [occurrencesFrom_none hc, Nat.add_right_comm, ih]
  | case4 offset c t found value hc ih =>
    rw [occurrencesFrom, hc, List.map_cons, ← ih, Nat.add_right_comm]

/-- A search goes on in what follows a text, if what follows changes nothing of what is recognised
in the text. -/
theorem Sound.occurrencesFrom_append (h : Sound accept) {t : Text}
    (hsame : ∀ p q, t = p ++ q → q ≠ [] → accept (q ++ u) = accept q) :
    occurrencesFrom accept offset 0 (t ++ u) =
      occurrencesFrom accept offset 0 t ++ occurrencesFrom accept (offset + size t) 0 u := by
  -- One character of the text is passed, or an occurrence that is all in the text.
  induction hn : t.length using Nat.strongRecOn generalizing offset t with
  | ind n ih =>
    subst hn
    cases t with
    | nil => rfl
    | cons c t =>
      have hfront := hsame [] (c :: t) rfl (List.cons_ne_nil c t)
      cases hf : accept (c :: t) with
      | none =>
        rw [hf, List.cons_append] at hfront
        rw [List.cons_append, occurrencesFrom_none hfront, occurrencesFrom_none hf, size_cons,
          ← Nat.add_assoc]
        exact ih t.length (Nat.lt_succ_self _)
          (fun p q he => hsame (c :: p) q (by rw [he]; rfl)) rfl
      | some accepted =>
        obtain ⟨found, value⟩ := accepted
        obtain ⟨rest, he⟩ := h.front hf
        rw [hf, he, List.append_assoc] at hfront
        rw [he] at hf hsame ⊢
        rw [List.append_assoc, h.occurrencesFrom_some hfront, h.occurrencesFrom_some hf,
          size_append, ← Nat.add_assoc, List.cons_append]
        refine congrArg _ (ih rest.length ?_ (fun p q he => hsame (found ++ p) q ?_) rfl)
        · have := congrArg List.length he
          have := List.length_pos_iff.mpr (h.solid hf)
          rw [List.length_append] at *
          omega
        · rw [he, List.append_assoc]

end GadgetBuild.Text
