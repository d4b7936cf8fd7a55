import GadgetBuild.Proofs.Overlay.Glyphs

/-!
What a run of edits says of a text by itself: which offsets it names, in which order it puts the
bytes, and where its moves tear the text. With that, the edits that an overlay does not do justice.
-/

namespace GadgetBuild.Overlay

/-- The offsets that an edit names. -/
def Edit.offsets : Edit → List Nat
  | .insert _ _ i _ => [i]
  | .update s _ | .remove s => if s.start = s.stop then [] else [s.start, s.stop]
  | .relocate s i => if s.start = s.stop then [] else [s.start, s.stop, i]

def offsets (edits : List Edit) : List Nat :=
  edits.flatMap Edit.offsets

/-- Puts the bytes of a moved span before its target, or behind all others. -/
def Edit.arrange (e : Edit) (bytes : List Nat) : List Nat :=
  match e.move? with
  | none => bytes
  | some (s, i) =>
    let others := bytes.filter fun k => ¬ s.Has k
    others.takeWhile (· ≠ i) ++ (bytes.filter s.Has ++ others.dropWhile (· ≠ i))

/-- The bytes of a text in the order in which the moves put them. -/
def arrangement (text : Text) (edits : List Edit) : List Nat :=
  edits.foldl (fun bytes e => e.arrange bytes) (List.range text.size)

/-- An offset where some move tears the text. -/
def Seam (moved : List (Span × Nat)) (k : Nat) : Prop :=
  ∃ m ∈ moved, k = m.1.start ∨ k = m.1.stop ∨ k = m.2

/-- No moved span has the target of a move strictly inside. -/
def Unnested (edits : List Edit) : Prop :=
  ∀ m ∈ moves edits, ∀ n ∈ moves edits, ¬ (m.1.start < n.2 ∧ n.2 < m.1.stop)

/-- A replaced span has an offset strictly inside that an edit before has named. -/
def Overruns (edits : List Edit) (e : Edit) : Prop :=
  ∃ r ∈ e.replacement?, ∃ k ∈ offsets edits, r.1.start < k ∧ k < r.1.stop

/-- A moved span stands right before its target already. -/
def InPlace (text : Text) (edits : List Edit) (e : Edit) : Prop :=
  ∃ m ∈ e.move?, [m.1.stop - 1, m.2] <:+: arrangement text edits

instance : Decidable (Unnested edits) :=
  inferInstanceAs (Decidable (∀ m ∈ moves edits, ∀ n ∈ moves edits, ¬ _))

instance : Decidable (Overruns edits e) :=
  inferInstanceAs (Decidable (∃ r ∈ e.replacement?, _))

instance (text : Text) : Decidable (InPlace text edits e) :=
  inferInstanceAs (Decidable (∃ m ∈ e.move?, _))

/-- No edit of the run overruns an offset or moves a span to where it stands. -/
def Tidy (text : Text) (edits : List Edit) : Prop :=
  ∀ init e rest, edits = init ++ e :: rest → ¬ Overruns init e ∧ ¬ InPlace text init e

/-- The edits that break the promise: a span is replaced over an offset named before, or one that
stands right before its target is moved, with others before it and not all of it removed. -/
def Loses (text : Text) (edits : List Edit) (e : Edit) : Prop :=
  Overruns edits e ∨ ∃ m ∈ e.move?, [m.1.stop - 1, m.2] <:+: arrangement text edits ∧
    (arrangement text edits).head? ≠ some m.1.start ∧
    ∃ k, m.1.Has k ∧ ∀ r ∈ replacements edits, r.2 = [] → ¬ r.1.Has k

@[simp] theorem offsets_append (first next : List Edit) :
    offsets (first ++ next) = offsets first ++ offsets next :=
  List.flatMap_append

theorem offsets_singleton (e : Edit) : offsets [e] = e.offsets := by
  simp [offsets]

theorem arrangement_concat (text : Text) (edits : List Edit) (e : Edit) :
    arrangement text (edits ++ [e]) = e.arrange (arrangement text edits) := by
  simp [arrangement]

theorem Unnested.append_left (h : Unnested (first ++ next)) : Unnested first := by
  intro m hm n hn
  exact h m (by simp [hm]) n (by simp [hn])

theorem Tidy.nil {text : Text} : Tidy text [] := by
  intro init e rest he
  exact absurd he (by simp)

theorem Tidy.append_left {text : Text} (h : Tidy text (first ++ next)) : Tidy text first := by
  intro init e rest he
  exact h init e (rest ++ next) (by simp [he])

theorem Tidy.last {text : Text} (h : Tidy text (edits ++ [e])) :
    ¬ Overruns edits e ∧ ¬ InPlace text edits e :=
  h edits e [] rfl

theorem Tidy.concat {text : Text} (h : Tidy text edits) (hover : ¬ Overruns edits e)
    (hplace : ¬ InPlace text edits e) : Tidy text (edits ++ [e]) := by
  intro init f rest he
  cases rest using List.reverseRecOn with
  | nil =>
    obtain ⟨rfl, hf⟩ := List.append_inj' he rfl
    obtain rfl := (List.cons.inj hf).1
    exact ⟨hover, hplace⟩
  | append_singleton rest g =>
    rw [← List.cons_append, ← List.append_assoc] at he
    obtain ⟨hinit, _⟩ := List.append_inj' he rfl
    exact h init f rest hinit

/-- A tidy edit breaks no promise. -/
theorem not_loses {text : Text} (hover : ¬ Overruns edits e) (hplace : ¬ InPlace text edits e) :
    ¬ Loses text edits e := by
  rintro (h | ⟨m, hm, hin, _⟩)
  · exact hover h
  · exact hplace ⟨m, hm, hin⟩

theorem Seam.of_append (h : Seam moved k) : Seam (moved ++ more) k := by
  obtain ⟨m, hm, hk⟩ := h
  exact ⟨m, by simp [hm], hk⟩

/-- A run of bytes that fills a span goes between the bytes before its target and the rest. -/
theorem Edit.arrange_eq {p run q x y : List Nat} (he : move? e = some (s, i))
    (hrun : ∀ k ∈ run, s.Has k) (hp : ∀ k ∈ p, ¬ s.Has k) (hq : ∀ k ∈ q, ¬ s.Has k)
    (hxy : p ++ q = x ++ y) (hx : i ∉ x) (hy : ∀ k, y.head? = some k → k = i) :
    arrange e (p ++ (run ++ q)) = x ++ (run ++ y) := by
  have hin : (p ++ (run ++ q)).filter s.Has = run := by
    rw [List.filter_append, List.filter_append, List.filter_eq_nil_iff.mpr (by simpa using hp),
      List.filter_eq_self.mpr (by simpa using hrun), List.filter_eq_nil_iff.mpr (by simpa using hq),
      List.nil_append, List.append_nil]
  have hout : (p ++ (run ++ q)).filter (fun k => ¬ s.Has k) = x ++ y := by
    rw [List.filter_append, List.filter_append, List.filter_eq_self.mpr (by simpa using hp),
      List.filter_eq_nil_iff.mpr (by simpa using hrun), List.filter_eq_self.mpr (by simpa using hq),
      List.nil_append, hxy]
  have hbefore : ∀ k ∈ x, decide (k ≠ i) = true := by
    intro k hk
    exact decide_eq_true fun hki => hx (hki ▸ hk)
  simp only [arrange, he, hin, hout]
  rw [List.takeWhile_append_of_pos hbefore, List.dropWhile_append_of_pos hbefore]
  cases y with
  | nil => simp
  | cons k y =>
    obtain rfl := hy k rfl
    rw [List.takeWhile_cons_of_neg (by simp), List.dropWhile_cons_of_neg (by simp),
      List.append_nil]

/-- What stands right behind a number in a list without repetitions. -/
theorem infix_iff {x z : List Nat} (h : (x ++ j :: z).Nodup) :
    [j, k] <:+: x ++ j :: z ↔ z.head? = some k := by
  have hx : j ∉ x := fun hm => (List.nodup_append'.mp h).2.2 hm (by simp)
  have hz : j ∉ z := (List.nodup_cons.mp (List.nodup_append'.mp h).2.1).1
  constructor
  · rintro ⟨p, q, he⟩
    rw [List.append_assoc, List.cons_append, List.singleton_append] at he
    obtain ⟨_, _, rfl⟩ := (List.append_cons_inj_of_notMem hx hz).mp he.symm
    rfl
  · intro hk
    obtain ⟨q, rfl⟩ := List.head?_eq_some_iff.mp hk
    exact ⟨x, q, by simp⟩

end GadgetBuild.Overlay
