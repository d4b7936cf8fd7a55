import Mathlib.Data.List.Induction
import GadgetBuild.Overlay.Basic
import GadgetBuild.Proofs.Text.Offsets

/-!
What the checks of an overlay let pass. Each check looks at one remembered span, and it says the
same as looking at all of them, since remembered spans stand apart and in order.
-/

namespace GadgetBuild

/-- The span has a character of a range, or an empty range strictly inside. -/
def Span.Meets (s : Span) (start stop : Nat) : Prop :=
  s.start < stop ∧ start < s.stop

instance (s : Span) (start stop : Nat) : Decidable (s.Meets start stop) :=
  inferInstanceAs (Decidable (_ ∧ _))

def Span.Covers (s r : Span) : Prop :=
  s.start ≤ r.start ∧ r.stop ≤ s.stop

/-- A span that meets no character of a range has neither end of it strictly inside. -/
theorem Span.not_meets_ends {r : Span} {start stop : Nat} (h : ¬ r.Meets start stop)
    (hlt : start < stop) : ¬ r.Meets start start ∧ ¬ r.Meets stop stop := by
  unfold Span.Meets at h ⊢
  omega

/-- Two spans that are not empty have a byte in common. -/
def Span.Shares (s r : Span) : Prop :=
  s.Meets r.start r.stop

/-- The offset is strictly inside. -/
def Span.Encloses (s : Span) (i : Nat) : Prop :=
  s.Meets i i

instance (s : Span) (i : Nat) : Decidable (s.Encloses i) :=
  inferInstanceAs (Decidable (s.Meets i i))

theorem Span.Shares.symm {s r : Span} (h : s.Shares r) : r.Shares s :=
  ⟨h.2, h.1⟩

/-- A span that encloses neither end of another is inside of it or clear of it. -/
theorem Span.covers_of_shares {m r : Span} (hstart : ¬ r.Encloses m.start)
    (hstop : ¬ r.Encloses m.stop) (h : m.Shares r) : m.Covers r := by
  unfold Encloses Shares Meets at *
  unfold Covers
  omega

theorem Span.covers_or_clear_iff {m r : Span} :
    m.Covers r ∨ ¬ m.Shares r ↔ (m.Meets r.start r.stop → m.Covers r) :=
  or_comm.trans imp_iff_not_or.symm

namespace Overlay

/-- Spans that are not empty and follow each other without a common character. -/
structure Spans.Apart (spans : Spans) : Prop where
  solid : ∀ s ∈ spans, s.start < s.stop
  ordered : spans.Pairwise fun a b => a.stop ≤ b.start

namespace Spans

theorem mem_insert {spans : Spans} : r ∈ spans.insert s ↔ r = s ∨ r ∈ spans := by
  induction spans with
  | nil => simp [insert]
  | cons a spans ih =>
    rw [insert]
    split
    · rw [List.mem_cons, ih, List.mem_cons]
      exact or_left_comm
    · rw [List.mem_cons]

theorem Apart.nil : Apart [] :=
  ⟨by simp, .nil⟩

theorem Apart.insert {spans : Spans} (h : spans.Apart) (hs : s.start < s.stop)
    (hd : ∀ r ∈ spans, ¬ r.Meets s.start s.stop) : (spans.insert s).Apart := by
  constructor
  · intro r hr
    rcases mem_insert.mp hr with rfl | hr
    · exact hs
    · exact h.solid r hr
  · obtain ⟨hsolid, hord⟩ := h
    induction spans with
    | nil => simp [Spans.insert]
    | cons a spans ih =>
      have ha := hd a (by simp)
      have hasolid := hsolid a (by simp)
      obtain ⟨hfirst, hrest⟩ := List.pairwise_cons.mp hord
      unfold Span.Meets at ha
      rw [Spans.insert]
      split
      · refine List.pairwise_cons.mpr ⟨?_, ih (fun r hr => hd r (by simp [hr]))
          (fun r hr => hsolid r (by simp [hr])) hrest⟩
        intro r hr
        rcases mem_insert.mp hr with rfl | hr
        · omega
        · exact hfirst r hr
      · refine List.pairwise_cons.mpr ⟨?_, hord⟩
        intro r hr
        rcases List.mem_cons.mp hr with rfl | hr
        · omega
        · have := hfirst r hr
          omega

/-- What is found meets the range. -/
theorem of_meeting {spans : Spans} (h : spans.meeting start stop = some s) :
    s ∈ spans ∧ s.Meets start stop := by
  obtain ⟨hl, hs⟩ := Option.filter_eq_some_iff.mp h
  obtain ⟨hm, hlt⟩ := List.mem_filter.mp (List.mem_of_getLast? hl)
  exact ⟨hm, by simpa using hlt, by simpa using hs⟩

/-- Of spans that stand apart, one that meets a range is the last to begin before the range's end
or is followed by another that meets it. -/
theorem Apart.exists_meeting {spans : Spans} (h : spans.Apart) (hm : s ∈ spans)
    (hs : s.Meets start stop) :
    ∃ r, spans.meeting start stop = some r ∧ (r = s ∨ s.stop ≤ r.start) := by
  have hf : s ∈ spans.filter fun r => r.start < stop :=
    List.mem_filter.mpr ⟨hm, by simpa using hs.1⟩
  obtain ⟨front, r, he⟩ : ∃ front r, spans.filter (fun r => r.start < stop) = front ++ [r] :=
    ⟨_, _, (List.dropLast_concat_getLast (List.ne_nil_of_mem hf)).symm⟩
  have hlast : r ∈ spans.filter fun r => r.start < stop := by
    rw [he]
    exact List.mem_append_right _ (by simp)
  have hord := h.ordered.filter fun r => r.start < stop
  rw [he] at hf hord
  have hr : r ∈ spans := (List.mem_filter.mp hlast).1
  have hsolid := h.solid r hr
  have hpos : r = s ∨ s.stop ≤ r.start := by
    rcases List.mem_append.mp hf with hf | hf
    · exact Or.inr ((List.pairwise_append.mp hord).2.2 s hf r (by simp))
    · exact Or.inl (List.mem_singleton.mp hf).symm
  refine ⟨r, ?_, hpos⟩
  have hstop : start < r.stop := by
    rcases hpos with rfl | hpos
    · exact hs.2
    · have := hs.2
      omega
  simp [meeting, he, hstop]

theorem Apart.meeting_eq_none_iff {spans : Spans} (h : spans.Apart) :
    spans.meeting start stop = none ↔ ∀ s ∈ spans, ¬ s.Meets start stop := by
  constructor
  · intro hn s hs hm
    obtain ⟨r, hr, _⟩ := h.exists_meeting hs hm
    rw [hn] at hr
    cases hr
  · intro hn
    cases hm : spans.meeting start stop with
    | none => rfl
    | some s => exact absurd (of_meeting hm).2 (hn s (of_meeting hm).1)

/-- If the span that is found covers the range, no other span meets the range. -/
theorem Apart.meeting_filter_eq_none_iff {spans : Spans} (h : spans.Apart) :
    (spans.meeting s.start s.stop).filter (fun m => s.start < m.start ∨ m.stop < s.stop) = none ↔
      ∀ m ∈ spans, m.Meets s.start s.stop → m.Covers s := by
  constructor
  · intro hn m hm hmeets
    obtain ⟨r, hr, hpos⟩ := h.exists_meeting hm hmeets
    rw [hr, Option.filter_eq_none_iff] at hn
    have hc := hn r rfl
    simp only [decide_eq_true_eq, not_or, Nat.not_lt] at hc
    rcases hpos with rfl | hpos
    · exact hc
    · have := hmeets.2
      omega
  · intro hc
    rw [Option.filter_eq_none_iff]
    intro m hm
    obtain ⟨hin, hmeets⟩ := of_meeting hm
    have := hc m hin hmeets
    unfold Span.Covers at this
    simp only [decide_eq_true_eq, not_or, Nat.not_lt]
    exact this

end Spans

/-- The new text of an edit and the span it stands for. -/
def Edit.replacement? : Edit → Option (Span × Text)
  | .insert _ _ _ _ | .relocate _ _ => none
  | .update s content => if s.start = s.stop then none else some (s, content)
  | .remove s => if s.start = s.stop then none else some (s, [])

/-- The span that an edit moves, and where to. -/
def Edit.move? : Edit → Option (Span × Nat)
  | .relocate s i => if s.start = s.stop then none else some (s, i)
  | _ => none

def replacements (edits : List Edit) : List (Span × Text) :=
  edits.filterMap Edit.replacement?

def moves (edits : List Edit) : List (Span × Nat) :=
  edits.filterMap Edit.move?

@[simp] theorem replacements_append (first next : List Edit) :
    replacements (first ++ next) = replacements first ++ replacements next :=
  List.filterMap_append

@[simp] theorem moves_append (first next : List Edit) :
    moves (first ++ next) = moves first ++ moves next :=
  List.filterMap_append

theorem mem_replacements_singleton : x ∈ replacements [e] ↔ e.replacement? = some x := by
  simp [replacements]

theorem mem_moves_singleton : x ∈ moves [e] ↔ e.move? = some x := by
  simp [moves]

theorem Edit.replacement?_eq_some_iff : replacement? e = some (s, content) ↔
    s.start ≠ s.stop ∧ (e = .update s content ∨ e = .remove s ∧ content = []) := by
  cases e with
  | insert => simp [replacement?]
  | relocate => simp [replacement?]
  | update r c | remove r =>
    simp only [replacement?]
    by_cases hr : r.start = r.stop
    · simp only [if_pos hr, reduceCtorEq, Edit.update.injEq, Edit.remove.injEq, false_and,
        or_false, false_or, false_iff]
      rintro ⟨hne, rfl, _⟩
      exact hne hr
    · simp only [if_neg hr, Option.some.injEq, Prod.mk.injEq, reduceCtorEq, Edit.update.injEq,
        Edit.remove.injEq, false_and, or_false, false_or]
      constructor
      · rintro ⟨rfl, rfl⟩
        exact ⟨hr, rfl, rfl⟩
      · rintro ⟨_, rfl, rfl⟩
        exact ⟨rfl, rfl⟩

theorem Edit.move?_eq_some_iff :
    move? e = some (s, i) ↔ s.start ≠ s.stop ∧ e = .relocate s i := by
  cases e with
  | insert | update | remove => simp [move?]
  | relocate r j =>
    simp only [move?]
    by_cases hr : r.start = r.stop
    · simp only [if_pos hr, reduceCtorEq, Edit.relocate.injEq, false_iff]
      rintro ⟨hne, rfl, _⟩
      exact hne hr
    · simp only [if_neg hr, Option.some.injEq, Prod.mk.injEq, Edit.relocate.injEq]
      constructor
      · rintro ⟨rfl, rfl⟩
        exact ⟨hr, rfl, rfl⟩
      · rintro ⟨_, rfl, rfl⟩
        exact ⟨rfl, rfl⟩

theorem Edit.replacement?_of_move (h : move? e = some m) : replacement? e = none := by
  obtain ⟨_, rfl⟩ := Edit.move?_eq_some_iff.mp h
  rfl

/-- The spans replaced are those of updates and removals that are not empty. -/
theorem mem_replacements : (s, content) ∈ replacements edits ↔
    s.start ≠ s.stop ∧ (.update s content ∈ edits ∨ .remove s ∈ edits ∧ content = []) := by
  simp only [replacements, List.mem_filterMap, Edit.replacement?_eq_some_iff]
  constructor
  · rintro ⟨e, he, hne, rfl | ⟨rfl, hc⟩⟩
    · exact ⟨hne, Or.inl he⟩
    · exact ⟨hne, Or.inr ⟨he, hc⟩⟩
  · rintro ⟨hne, he | ⟨he, hc⟩⟩
    · exact ⟨_, he, hne, Or.inl rfl⟩
    · exact ⟨_, he, hne, Or.inr ⟨rfl, hc⟩⟩

theorem mem_moves : (s, i) ∈ moves edits ↔ s.start ≠ s.stop ∧ .relocate s i ∈ edits := by
  simp only [moves, List.mem_filterMap, Edit.move?_eq_some_iff]
  constructor
  · rintro ⟨e, he, hne, rfl⟩
    exact ⟨hne, he⟩
  · rintro ⟨hne, he⟩
    exact ⟨_, he, hne, rfl⟩

theorem of_mem_replacements_update (h : (r, c) ∈ replacements (edits ++ [.update s content])) :
    (r, c) ∈ replacements edits ∨ r = s := by
  rw [replacements_append, List.mem_append, mem_replacements_singleton,
    Edit.replacement?_eq_some_iff] at h
  rcases h with h | ⟨_, h | ⟨h, _⟩⟩
  · exact Or.inl h
  · exact Or.inr (Edit.update.inj h).1.symm
  · cases h

@[simp] theorem replacements_insert :
    replacements (edits ++ [.insert side place i content]) = replacements edits := by
  rw [replacements_append]
  exact List.append_nil _

@[simp] theorem moves_update : moves (edits ++ [.update s content]) = moves edits := by
  rw [moves_append]
  exact List.append_nil _

namespace History

/-- Both kinds of remembered spans stand apart. -/
structure Apart (h : History) : Prop where
  edited : h.edited.Apart
  moved : h.moved.Apart

theorem Apart.empty : Apart empty :=
  ⟨.nil, .nil⟩

theorem mem_record_edited {h : History} :
    s ∈ (h.record e).edited ↔ s ∈ h.edited ∨ ∃ content, e.replacement? = some (s, content) := by
  cases e with
  | insert => simp [record, Edit.replacement?]
  | relocate => simp only [record, Edit.replacement?]; split <;> simp
  | update r content | remove r =>
    simp only [record, Edit.replacement?]
    split
    · simp
    · simp [Spans.mem_insert, or_comm, eq_comm]

theorem mem_record_moved {h : History} :
    s ∈ (h.record e).moved ↔ s ∈ h.moved ∨ ∃ i, e.move? = some (s, i) := by
  cases e with
  | insert => simp [record, Edit.move?]
  | update | remove => simp only [record, Edit.move?]; split <;> simp
  | relocate r i =>
    simp only [record, Edit.move?]
    split
    · simp
    · simp [Spans.mem_insert, or_comm, eq_comm]

/-- The span is a part of the text. -/
def InText (text : Text) (s : Span) : Prop :=
  s.start ≤ s.stop ∧ Text.isBoundary s.start text ∧ Text.isBoundary s.stop text

/-- The rule for each edit, over all spans remembered. -/
def Allows (text : Text) (h : History) : Edit → Prop
  | .insert _ _ i _ => InText text ⟨i, i⟩ ∧ ∀ s ∈ h.edited, ¬ s.Meets i i
  | .update s _ => InText text s ∧ s.start ≠ s.stop ∧
      (∀ r ∈ h.edited, ¬ r.Meets s.start s.stop) ∧
      ∀ m ∈ h.moved, m.Meets s.start s.stop → m.Covers s
  | .remove s => InText text s ∧ (s.start ≠ s.stop →
      (∀ r ∈ h.edited, ¬ r.Meets s.start s.stop) ∧
      ∀ m ∈ h.moved, m.Meets s.start s.stop → m.Covers s)
  | .relocate s i => InText text s ∧ InText text ⟨i, i⟩ ∧ (s.start ≠ s.stop →
      ¬ (s.start ≤ i ∧ i ≤ s.stop) ∧
      (∀ r ∈ h.edited, ¬ r.Meets s.start s.start ∧ ¬ r.Meets s.stop s.stop ∧ ¬ r.Meets i i) ∧
      ∀ m ∈ h.moved, ¬ m.Meets s.start s.stop ∧ ¬ m.Meets i i)

theorem checkRange_eq_ok_iff {text : Text} : checkRange text s = .ok () ↔ InText text s := by
  unfold checkRange InText
  constructor
  · intro h
    split at h
    · rename_i hc
      exact ⟨hc.1, hc.2.2⟩
    · cases h
  · rintro ⟨hle, hstart, hstop⟩
    rw [if_pos ⟨hle, Text.isBoundary_le hstop, hstart, hstop⟩]

theorem forbid_eq_ok_iff : forbid found = .ok () ↔ found = none := by
  cases found <;> simp [forbid]

theorem check_then_eq_ok_iff {x : Except ε Unit} {f : Unit → Except ε α} :
    (x >>= f) = .ok b ↔ x = .ok () ∧ f () = .ok b := by
  cases x <;> simp [bind, Except.bind]

theorem Apart.checkReplacement_eq_ok_iff {h : History} (ha : h.Apart) :
    h.checkReplacement s = .ok () ↔ (∀ r ∈ h.edited, ¬ r.Meets s.start s.stop) ∧
      ∀ m ∈ h.moved, m.Meets s.start s.stop → m.Covers s := by
  simp only [checkReplacement, check_then_eq_ok_iff, forbid_eq_ok_iff,
    ha.edited.meeting_eq_none_iff, ha.moved.meeting_filter_eq_none_iff]

/-- The checks decide the rule. -/
theorem Apart.check_eq_ok_iff {text : Text} {h : History} (ha : h.Apart) :
    h.check text e = .ok () ↔ h.Allows text e := by
  cases e with
  | insert side place i content =>
    simp only [check, check_then_eq_ok_iff, checkRange_eq_ok_iff, forbid_eq_ok_iff,
      ha.edited.meeting_eq_none_iff, Allows]
  | update s content =>
    simp only [check, check_then_eq_ok_iff, checkRange_eq_ok_iff, Allows]
    by_cases hs : s.start = s.stop
    · simp [hs, throw, throwThe, MonadExceptOf.throw, bind, Except.bind]
    · simp [hs, ha.checkReplacement_eq_ok_iff]
  | remove s =>
    simp only [check, check_then_eq_ok_iff, checkRange_eq_ok_iff, Allows]
    by_cases hs : s.start = s.stop
    · simp [hs, pure, Except.pure]
    · simp [hs, ha.checkReplacement_eq_ok_iff]
  | relocate s i =>
    simp only [check, check_then_eq_ok_iff, checkRange_eq_ok_iff, Allows]
    by_cases hs : s.start = s.stop
    · simp [hs, pure, Except.pure]
    · by_cases hi : s.start ≤ i ∧ i ≤ s.stop
      · simp [hs, hi, throw, throwThe, MonadExceptOf.throw, bind, Except.bind]
      · simp [hs, hi, check_then_eq_ok_iff, forbid_eq_ok_iff, ha.edited.meeting_eq_none_iff,
          ha.moved.meeting_eq_none_iff, imp_and, forall_and, and_assoc]

/-- Remembering an edit that the rule allows keeps the spans apart. -/
theorem Apart.record {text : Text} {h : History} (ha : h.Apart) (he : h.Allows text e) :
    (h.record e).Apart := by
  cases e with
  | insert => exact ha
  | update s content =>
    obtain ⟨hin, hs, hfree, _⟩ := he
    simp only [History.record, hs, if_false]
    exact ⟨ha.edited.insert (Nat.lt_of_le_of_ne hin.1 hs) hfree, ha.moved⟩
  | remove s =>
    simp only [History.record]
    split
    · exact ha
    · rename_i hs
      exact ⟨ha.edited.insert (Nat.lt_of_le_of_ne he.1.1 hs) (he.2 hs).1, ha.moved⟩
  | relocate s i =>
    simp only [History.record]
    split
    · exact ha
    · rename_i hs
      have hm := (he.2.2 hs).2.2
      exact ⟨ha.edited, ha.moved.insert (Nat.lt_of_le_of_ne he.1.1 hs) fun r hr => (hm r hr).1⟩

end History

theorem apply_eq_ok_iff {o : Overlay} : o.apply e = .ok o' ↔ o.history.check o.text e = .ok () ∧
    ∃ w, o.weave.apply e = some w ∧ o' = { o with weave := w, history := o.history.record e } := by
  rw [apply]
  cases o.history.check o.text e with
  | error r => simp [Except.mapError, bind, Except.bind]
  | ok =>
    cases o.weave.apply e with
    | none => simp [Except.mapError, bind, Except.bind, throw, throwThe, MonadExceptOf.throw]
    | some w => simp [Except.mapError, bind, Except.bind, pure, Except.pure, eq_comm]

theorem applyAll_append {o : Overlay} : o.applyAll (first ++ next) = .ok o' ↔
    ∃ o₁, o.applyAll first = .ok o₁ ∧ o₁.applyAll next = .ok o' := by
  unfold applyAll
  rw [List.foldlM_append]
  cases first.foldlM apply o <;> simp [bind, Except.bind]

theorem applyAll_cons {o : Overlay} : o.applyAll (e :: edits) = .ok o' ↔
    ∃ o₁, o.apply e = .ok o₁ ∧ o₁.applyAll edits = .ok o' := by
  unfold applyAll
  rw [List.foldlM_cons]
  cases o.apply e <;> simp [bind, Except.bind]

/-- The overlay that edits leave when each of them is allowed in its turn and made. -/
inductive Accepted (text : Text) : List Edit → Overlay → Prop where
  | start : Accepted text [] (ofText text)
  | step (run : Accepted text edits o) (allowed : o.history.Allows text e)
      (made : o.weave.apply e = some w) :
      Accepted text (edits ++ [e]) { o with weave := w, history := o.history.record e }

variable {text : Text}

namespace Accepted

theorem text_eq (h : Accepted text edits o) : o.text = text := by
  induction h with
  | start => rfl
  | step run allowed made ih => exact ih

theorem apart (h : Accepted text edits o) : o.history.Apart := by
  induction h with
  | start => exact .empty
  | step run allowed made ih => exact ih.record allowed

theorem mem_edited (h : Accepted text edits o) :
    s ∈ o.history.edited ↔ ∃ content, (s, content) ∈ replacements edits := by
  induction h with
  | start => simp [ofText, History.empty, replacements]
  | step run allowed made ih => simp only [History.mem_record_edited, ih, replacements_append,
      List.mem_append, mem_replacements_singleton, exists_or]

theorem mem_moved (h : Accepted text edits o) :
    s ∈ o.history.moved ↔ ∃ i, (s, i) ∈ moves edits := by
  induction h with
  | start => simp [ofText, History.empty, moves]
  | step run allowed made ih => simp only [History.mem_record_moved, ih, moves_append,
      List.mem_append, mem_moves_singleton, exists_or]

/-- What the rule says of an edit that replaces a span. -/
theorem allows_replacement (run : Accepted text edits o) (allowed : o.history.Allows text e)
    (he : Edit.replacement? e = some (s, content)) :
    History.InText text s ∧ s.start < s.stop ∧
      ∀ r ∈ replacements edits, ¬ r.1.Meets s.start s.stop := by
  have hfree : (∀ r ∈ o.history.edited, ¬ r.Meets s.start s.stop) →
      ∀ r ∈ replacements edits, ¬ r.1.Meets s.start s.stop :=
    fun h r hr => h r.1 (run.mem_edited.mpr ⟨r.2, hr⟩)
  obtain ⟨hne, rfl | ⟨rfl, rfl⟩⟩ := Edit.replacement?_eq_some_iff.mp he
  · exact ⟨allowed.1, Nat.lt_of_le_of_ne allowed.1.1 hne, hfree allowed.2.2.1⟩
  · exact ⟨allowed.1, Nat.lt_of_le_of_ne allowed.1.1 hne, hfree (allowed.2 hne).1⟩

/-- What it says of one that moves a span. -/
theorem allows_move (run : Accepted text edits o) (allowed : o.history.Allows text e)
    (he : Edit.move? e = some (s, i)) :
    History.InText text s ∧ s.start < s.stop ∧ History.InText text ⟨i, i⟩ ∧
      ¬ (s.start ≤ i ∧ i ≤ s.stop) ∧
      (∀ r ∈ replacements edits,
        ¬ r.1.Meets s.start s.start ∧ ¬ r.1.Meets s.stop s.stop ∧ ¬ r.1.Meets i i) ∧
      ∀ m ∈ moves edits, ¬ m.1.Meets s.start s.stop := by
  obtain ⟨hne, rfl⟩ := Edit.move?_eq_some_iff.mp he
  obtain ⟨hout, hfree, hclear⟩ := allowed.2.2 hne
  exact ⟨allowed.1, Nat.lt_of_le_of_ne allowed.1.1 hne, allowed.2.1, hout,
    fun r hr => hfree r.1 (run.mem_edited.mpr ⟨r.2, hr⟩),
    fun m hm => (hclear m.1 (run.mem_moved.mpr ⟨m.2, hm⟩)).1⟩

theorem of_mem_replacements (run : Accepted text edits o)
    (hr : (s, content) ∈ replacements edits) : History.InText text s ∧ s.start < s.stop := by
  induction run with
  | start => cases hr
  | step run allowed made ih =>
    rw [replacements_append, List.mem_append, mem_replacements_singleton] at hr
    rcases hr with hr | he
    · exact ih hr
    · obtain ⟨hin, hs, _⟩ := run.allows_replacement allowed he
      exact ⟨hin, hs⟩

end Accepted

theorem Accepted.applyAll (h : Accepted text edits o) : (ofText text).applyAll edits = .ok o := by
  induction h with
  | start => rfl
  | @step edits o e w run allowed made ih =>
    refine applyAll_append.mpr ⟨o, ih, applyAll_cons.mpr
      ⟨_, apply_eq_ok_iff.mpr ⟨?_, w, made, rfl⟩, rfl⟩⟩
    rw [run.text_eq]
    exact run.apart.check_eq_ok_iff.mpr allowed

theorem accepted_of_applyAll (h : (ofText text).applyAll edits = .ok o) :
    Accepted text edits o := by
  induction edits using List.reverseRecOn generalizing o with
  | nil =>
    cases h
    exact .start
  | append_singleton edits e ih =>
    obtain ⟨o₁, hfirst, hlast⟩ := applyAll_append.mp h
    obtain ⟨o₂, hstep, hnil⟩ := applyAll_cons.mp hlast
    cases hnil
    obtain ⟨hcheck, w, made, rfl⟩ := apply_eq_ok_iff.mp hstep
    have run := ih hfirst
    rw [run.text_eq] at hcheck
    exact .step run (run.apart.check_eq_ok_iff.mp hcheck) made

end Overlay
end GadgetBuild
