import GadgetBuild.Proofs.Overlay.Progress

/-!
Runs in which edits may be rejected. What is decided about the next edit is the rule over all spans
that were edited or moved, in whatever order, though each check looks at one span only. What passes
the checks is made as long as no moved span has a target inside and none is moved to where it
stands.
-/

namespace GadgetBuild
namespace Overlay

/-- Tries an edit. One that is rejected changes nothing, and one that is stuck is the end. -/
def attempt (o : Overlay) (e : Edit) : Option Overlay :=
  match o.apply e with
  | .ok o' => some o'
  | .error (.rejected _) => some o
  | .error .stuck => none

def attemptAll (o : Overlay) (edits : List Edit) : Option Overlay :=
  edits.foldlM attempt o

/-- Of edits that are tried in turn, those that are accepted. -/
def taken (o : Overlay) : List Edit → List Edit
  | [] => []
  | e :: edits =>
    match o.apply e with
    | .ok o' => e :: taken o' edits
    | .error (.rejected _) => taken o edits
    | .error .stuck => []

def editedSpans (edits : List Edit) : List Span :=
  (replacements edits).map (·.1)

def movedSpans (edits : List Edit) : List Span :=
  (moves edits).map (·.1)

/-- The edit is accepted. -/
def Takes (o : Overlay) (e : Edit) : Prop :=
  ∃ o', o.apply e = .ok o'

/-- The edit is rejected. -/
def Refuses (o : Overlay) (e : Edit) : Prop :=
  ∃ r, o.apply e = .error (.rejected r)

/-- The span is one that forbids the edit. -/
def Conflicts (edited moved : List Span) (r : Span) : Edit → Prop
  | .insert _ _ i _ => r ∈ edited ∧ r.Encloses i
  | .update s _ | .remove s =>
    r ∈ edited ∧ r.Shares s ∨ r ∈ moved ∧ r.Shares s ∧ ¬ r.Covers s
  | .relocate s i =>
    r ∈ edited ∧ (r.Encloses s.start ∨ r.Encloses s.stop ∨ r.Encloses i) ∨
      r ∈ moved ∧ (r.Shares s ∨ r.Encloses i)

/-- How the spans edited and moved lie to each other, and what they say of the next edit. -/
structure Decides (text : Text) (edits : List Edit) (o : Overlay) : Prop where
  edited_apart : (editedSpans edits).Pairwise fun a b => ¬ a.Shares b
  moved_apart : (movedSpans edits).Pairwise fun a b => ¬ a.Shares b
  nested : ∀ r ∈ editedSpans edits,
    (∃ m ∈ movedSpans edits, m.Covers r) ∨ ∀ m ∈ movedSpans edits, ¬ m.Shares r
  insert_iff : ∀ side place i content, o.Takes (.insert side place i content) ↔
    Text.isBoundary i text ∧ ∀ r ∈ editedSpans edits, ¬ r.Encloses i
  update_iff : ∀ s content, s.start < s.stop → (¬ o.Refuses (.update s content) ↔
    History.InText text s ∧ (∀ r ∈ editedSpans edits, ¬ r.Shares s) ∧
      ∀ m ∈ movedSpans edits, m.Covers s ∨ ¬ m.Shares s)
  remove_iff : ∀ s, s.start < s.stop → (¬ o.Refuses (.remove s) ↔
    History.InText text s ∧ (∀ r ∈ editedSpans edits, ¬ r.Shares s) ∧
      ∀ m ∈ movedSpans edits, m.Covers s ∨ ¬ m.Shares s)
  remove_empty : ∀ i, o.apply (.remove ⟨i, i⟩) = .ok o ↔ Text.isBoundary i text
  relocate_iff : ∀ s i, ¬ o.Refuses (.relocate s i) ↔
    History.InText text s ∧ Text.isBoundary i text ∧ (s.start = s.stop ∨
      ¬ (s.start ≤ i ∧ i ≤ s.stop) ∧
      (∀ r ∈ editedSpans edits, ¬ r.Encloses s.start ∧ ¬ r.Encloses s.stop ∧ ¬ r.Encloses i) ∧
      ∀ m ∈ movedSpans edits, ¬ m.Shares s ∧ ¬ m.Encloses i)
  relocate_empty : ∀ i j, o.apply (.relocate ⟨i, i⟩ j) = .ok o ↔
    Text.isBoundary i text ∧ Text.isBoundary j text
  overlapping : ∀ e r, o.apply e = .error (.rejected (.overlapping r)) →
    Conflicts (editedSpans edits) (movedSpans edits) r e
  takes : ∀ e, Unnested (edits ++ [e]) → Shifts text edits → ¬ o.Refuses e → o.Takes e

variable {text : Text}

namespace History

/-- The rule looks at which spans are remembered only. -/
theorem Allows.congr {h h' : History} (hedited : ∀ s, s ∈ h.edited ↔ s ∈ h'.edited)
    (hmoved : ∀ s, s ∈ h.moved ↔ s ∈ h'.moved) : h.Allows text e ↔ h'.Allows text e := by
  cases e <;> simp only [Allows, hedited, hmoved]

theorem inText_empty_iff : InText text ⟨i, i⟩ ↔ Text.isBoundary i text :=
  ⟨fun h => h.2.1, fun h => ⟨Nat.le_refl i, h, h⟩⟩

theorem check_then_eq_error_iff {x : Except ε Unit} {f : Unit → Except ε α} :
    (x >>= f) = .error a ↔ x = .error a ∨ x = .ok () ∧ f () = .error a := by
  cases x <;> simp [bind, Except.bind]

theorem forbid_eq_overlapping_iff : forbid found = .error (.overlapping r) ↔ found = some r := by
  cases found <;> simp [forbid]

theorem checkRange_ne_overlapping : ¬ checkRange text s = .error (.overlapping r) := by
  unfold checkRange
  split <;> simp

theorem checkReplacement_conflicts {h : History}
    (hc : h.checkReplacement s = .error (.overlapping r)) :
    r ∈ h.edited ∧ r.Shares s ∨ r ∈ h.moved ∧ r.Shares s ∧ ¬ r.Covers s := by
  rcases check_then_eq_error_iff.mp hc with hc | ⟨_, hc⟩
  · exact Or.inl (Spans.of_meeting (forbid_eq_overlapping_iff.mp hc))
  · obtain ⟨hm, hcut⟩ := Option.filter_eq_some_iff.mp (forbid_eq_overlapping_iff.mp hc)
    obtain ⟨hin, hshares⟩ := Spans.of_meeting hm
    refine Or.inr ⟨hin, hshares, ?_⟩
    unfold Span.Covers
    simp only [decide_eq_true_eq] at hcut
    omega

/-- A check that names a span names one that forbids the edit. -/
theorem check_conflicts {h : History} (hc : h.check text e = .error (.overlapping r)) :
    Conflicts h.edited h.moved r e := by
  cases e with
  | insert side place i content =>
    simp only [check, check_then_eq_error_iff, checkRange_ne_overlapping, false_or,
      forbid_eq_overlapping_iff] at hc
    exact Spans.of_meeting hc.2
  | update s content =>
    simp only [check, check_then_eq_error_iff, checkRange_ne_overlapping, false_or] at hc
    split at hc
    · simp [throw, throwThe, MonadExceptOf.throw, bind, Except.bind] at hc
    · exact checkReplacement_conflicts hc.2
  | remove s =>
    simp only [check, check_then_eq_error_iff, checkRange_ne_overlapping, false_or] at hc
    split at hc
    · simp [pure, Except.pure] at hc
    · exact checkReplacement_conflicts hc.2
  | relocate s i =>
    simp only [check, check_then_eq_error_iff, checkRange_ne_overlapping, false_or] at hc
    obtain ⟨_, _, hc⟩ := hc
    split at hc
    · simp [pure, Except.pure] at hc
    split at hc
    · simp [throw, throwThe, MonadExceptOf.throw, bind, Except.bind] at hc
    simp only [check_then_eq_error_iff, forbid_eq_overlapping_iff] at hc
    rcases hc with hc | ⟨_, hc | ⟨_, hc | ⟨_, hc | ⟨_, hc⟩⟩⟩⟩
    · exact Or.inl ((Spans.of_meeting hc).imp_right Or.inl)
    · exact Or.inl ((Spans.of_meeting hc).imp_right fun h => Or.inr (Or.inl h))
    · exact Or.inl ((Spans.of_meeting hc).imp_right fun h => Or.inr (Or.inr h))
    · exact Or.inr ((Spans.of_meeting hc).imp_right Or.inl)
    · exact Or.inr ((Spans.of_meeting hc).imp_right Or.inr)

end History

theorem apply_eq_rejected_iff {o : Overlay} :
    o.apply e = .error (.rejected r) ↔ o.history.check o.text e = .error r := by
  rw [apply]
  cases o.history.check o.text e with
  | error => simp [Except.mapError, bind, Except.bind]
  | ok =>
    cases o.weave.apply e <;> simp [Except.mapError, bind, Except.bind, pure, Except.pure, throw,
      throwThe, MonadExceptOf.throw]

theorem refuses_iff {o : Overlay} : o.Refuses e ↔ ¬ o.history.check o.text e = .ok () := by
  simp only [Refuses, apply_eq_rejected_iff]
  cases o.history.check o.text e <;> simp

theorem takes_iff {o : Overlay} : o.Takes e ↔ ¬ o.Refuses e ∧ ∃ w, o.weave.apply e = some w := by
  rw [refuses_iff, not_not, Takes]
  simp only [apply_eq_ok_iff]
  constructor
  · rintro ⟨_, hcheck, w, hw, rfl⟩
    exact ⟨hcheck, w, hw⟩
  · rintro ⟨hcheck, w, hw⟩
    exact ⟨_, hcheck, w, hw, rfl⟩

/-- Remembered spans are kept in order, whenever they come. -/
theorem Spans.perm_insert {spans : Spans} : (spans.insert s).Perm (spans ++ [s]) := by
  induction spans with
  | nil => exact .refl _
  | cons r spans ih =>
    rw [insert]
    split
    · exact .cons r ih
    · exact (List.perm_append_singleton s (r :: spans)).symm

/-- Spans that stand apart in some order share no byte. -/
theorem Spans.Apart.pairwise {spans : Spans} {l : List Span} (h : spans.Apart)
    (hperm : l.Perm spans) : l.Pairwise fun a b => ¬ a.Shares b := by
  refine (hperm.pairwise_iff fun hab hba => hab hba.symm).mpr (h.ordered.imp ?_)
  rintro a b hab ⟨_, hlt⟩
  omega

theorem editedSpans_singleton : editedSpans [e] = (e.replacement?.map (·.1)).toList := by
  cases h : e.replacement? <;> simp [editedSpans, replacements, h]

theorem movedSpans_singleton : movedSpans [e] = (e.move?.map (·.1)).toList := by
  cases h : e.move? <;> simp [movedSpans, moves, h]

theorem History.perm_record {h : History} :
    (h.record e).edited.Perm (h.edited ++ editedSpans [e]) ∧
      (h.record e).moved.Perm (h.moved ++ movedSpans [e]) := by
  rw [editedSpans_singleton, movedSpans_singleton]
  cases e with
  | insert => simp [record, Edit.replacement?, Edit.move?]
  | update s content | remove s | relocate s i =>
    by_cases hs : s.start = s.stop <;>
      simp [record, Edit.replacement?, Edit.move?, hs, Spans.perm_insert]

namespace Accepted

/-- What is remembered are the spans that the accepted edits name. -/
theorem perm (run : Accepted text edits o) : (editedSpans edits).Perm o.history.edited ∧
    (movedSpans edits).Perm o.history.moved := by
  induction run with
  | start => exact ⟨.refl _, .refl _⟩
  | @step edits o e w run allowed made ih =>
    rw [editedSpans, movedSpans, replacements_append, moves_append, List.map_append,
      List.map_append]
    obtain ⟨hedited, hmoved⟩ := o.history.perm_record (e := e)
    exact ⟨(ih.1.append_right _).trans hedited.symm, (ih.2.append_right _).trans hmoved.symm⟩

/-- The next edit is rejected unless the rule over all spans allows it. -/
theorem not_refuses_iff (run : Accepted text edits o) : ¬ o.Refuses e ↔
    History.Allows text ⟨editedSpans edits, movedSpans edits⟩ e := by
  rw [Overlay.refuses_iff, not_not, run.text_eq, run.apart.check_eq_ok_iff]
  exact History.Allows.congr (fun s => run.perm.1.mem_iff.symm) fun s => run.perm.2.mem_iff.symm

/-- An edit that has nothing to do is accepted if the rule allows it, and changes nothing. -/
theorem apply_eq_self_iff (run : Accepted text edits o) (hweave : o.weave.apply e = some o.weave)
    (hrecord : o.history.record e = o.history) :
    o.apply e = .ok o ↔ o.history.Allows text e := by
  have hsame : ∃ w, o.weave.apply e = some w ∧
      o = { o with weave := w, history := o.history.record e } := ⟨o.weave, hweave, by rw [hrecord]⟩
  rw [apply_eq_ok_iff, and_iff_left hsame, run.text_eq, run.apart.check_eq_ok_iff]

/-- An edited span does not cross the border of a moved one. -/
theorem nested (run : Accepted text edits o) (hr : r ∈ editedSpans edits)
    (hm : m ∈ movedSpans edits) : m.Covers r ∨ ¬ m.Shares r := by
  induction run with
  | start => cases hr
  | @step edits o e w run allowed made ih =>
    rw [editedSpans, replacements_append, List.map_append, List.mem_append] at hr
    rw [movedSpans, moves_append, List.map_append, List.mem_append] at hm
    rcases hr with hr | hr
    · rcases hm with hm | hm
      · exact ih hr hm
      · obtain ⟨⟨s, i⟩, he, rfl⟩ := List.mem_map.mp hm
        obtain ⟨⟨r, content⟩, hin, rfl⟩ := List.mem_map.mp hr
        obtain ⟨_, _, _, _, hfree, _⟩ := run.allows_move allowed (mem_moves_singleton.mp he)
        by_cases hshares : s.Shares r
        · exact Or.inl (Span.covers_of_shares (hfree _ hin).1 (hfree _ hin).2.1 hshares)
        · exact Or.inr hshares
    · obtain ⟨⟨s, content⟩, he, rfl⟩ := List.mem_map.mp hr
      have he := mem_replacements_singleton.mp he
      rcases hm with hm | hm
      · obtain ⟨m', hm', rfl⟩ := List.mem_map.mp hm
        exact run.covers_or_clear allowed he m' hm'
      · obtain ⟨m', hm', rfl⟩ := List.mem_map.mp hm
        have hmove := Edit.replacement?_of_move (mem_moves_singleton.mp hm')
        rw [hmove] at he
        cases he

/-- What is decided after a run of accepted edits. -/
theorem decides (run : Accepted text edits o) :
    Decides text edits o where
  edited_apart := run.apart.edited.pairwise run.perm.1
  moved_apart := run.apart.moved.pairwise run.perm.2
  nested r hr := by
    by_cases hm : ∃ m ∈ movedSpans edits, m.Covers r
    · exact Or.inl hm
    · exact Or.inr fun m hin => (run.nested hr hin).resolve_left fun hc => hm ⟨m, hin, hc⟩
  insert_iff side place i content := by
    rw [takes_iff, run.not_refuses_iff, History.Allows, History.inText_empty_iff]
    exact and_iff_left ⟨_, rfl⟩
  update_iff s content hs := by
    rw [run.not_refuses_iff, History.Allows]
    simp only [ne_eq, Nat.ne_of_lt hs, not_false_eq_true, true_and, Span.covers_or_clear_iff]
    rfl
  remove_iff s hs := by
    rw [run.not_refuses_iff, History.Allows]
    simp only [ne_eq, Nat.ne_of_lt hs, not_false_eq_true, true_imp_iff, Span.covers_or_clear_iff]
    rfl
  remove_empty i := by
    have hweave : o.weave.apply (.remove ⟨i, i⟩) = some o.weave := if_pos rfl
    rw [run.apply_eq_self_iff hweave (by simp [History.record]), History.Allows,
      History.inText_empty_iff]
    exact and_iff_left fun hne => absurd rfl hne
  relocate_iff s i := by
    rw [run.not_refuses_iff, History.Allows, History.inText_empty_iff, or_iff_not_imp_left]
    rfl
  relocate_empty i j := by
    have hweave : o.weave.apply (.relocate ⟨i, i⟩ j) = some o.weave := if_pos rfl
    rw [run.apply_eq_self_iff hweave (by simp [History.record]), History.Allows,
      History.inText_empty_iff, History.inText_empty_iff]
    exact and_congr_right fun _ => and_iff_left fun hne => absurd rfl hne
  overlapping e r he := by
    have hc := History.check_conflicts (apply_eq_rejected_iff.mp he)
    cases e <;> simpa only [Conflicts, run.perm.1.mem_iff, run.perm.2.mem_iff] using hc
  takes e hun hshifts hpass := by
    refine takes_iff.mpr ⟨hpass, run.exists_apply ?_ hun hshifts⟩
    rw [Overlay.refuses_iff, not_not, run.text_eq] at hpass
    exact run.apart.check_eq_ok_iff.mp hpass

end Accepted

/-- Edits that are rejected leave no trace. -/
theorem Accepted.attemptAll (run : Accepted text init o) (h : o.attemptAll edits = some o') :
    Accepted text (init ++ taken o edits) o' := by
  induction edits generalizing init o with
  | nil =>
    obtain rfl := Option.some.inj h
    rwa [taken, List.append_nil]
  | cons e edits ih =>
    rw [Overlay.attemptAll, List.foldlM_cons, attempt] at h
    rw [taken]
    cases he : o.apply e with
    | error fault =>
      rw [he] at h
      cases fault with
      | rejected r => exact ih run h
      | stuck => cases h
    | ok o₁ =>
      rw [he] at h
      obtain ⟨hcheck, w, made, rfl⟩ := apply_eq_ok_iff.mp he
      rw [run.text_eq, run.apart.check_eq_ok_iff] at hcheck
      have hrest := ih (run.step hcheck made) h
      rwa [List.append_assoc] at hrest

/-- Whatever edits are tried on a text, as long as none is stuck the checks decide the rule over the
spans of all those that were accepted. -/
theorem checks_decide_rule (h : (ofText text).attemptAll edits = some o) :
    Decides text (taken (ofText text) edits) o := by
  have run : Accepted text (taken (ofText text) edits) o := Accepted.start.attemptAll h
  exact run.decides

/-- A move, an update in the moved span, a removal that shares a byte with it and one that does not
cross the moved span. -/
def triedEdits : List Edit :=
  [.relocate ⟨1, 4⟩ 6, .update ⟨2, 3⟩ ['x'], .remove ⟨2, 4⟩, .remove ⟨4, 5⟩]

theorem triedEdits_decided : ∃ o, (ofText "abcdefg".toList).attemptAll triedEdits = some o ∧
    taken (ofText "abcdefg".toList) triedEdits =
      [.relocate ⟨1, 4⟩ 6, .update ⟨2, 3⟩ ['x'], .remove ⟨4, 5⟩] ∧
    Decides "abcdefg".toList (taken (ofText "abcdefg".toList) triedEdits) o := by
  obtain ⟨o, ho⟩ : ∃ o, (ofText "abcdefg".toList).attemptAll triedEdits = some o := ⟨_, rfl⟩
  exact ⟨o, ho, by decide +kernel, checks_decide_rule ho⟩

/-- The rule allows the move of a span of which the ends are shown first and last, to what is shown
between them, and the move is stuck. -/
theorem allowedMove_stuck : ∃ o, (ofText "abc".toList).attemptAll [.relocate ⟨0, 1⟩ 2] = some o ∧
    o.apply (.relocate ⟨1, 3⟩ 0) = .error .stuck ∧
    ¬ (o.Takes (.relocate ⟨1, 3⟩ 0) ↔ History.InText "abc".toList ⟨1, 3⟩ ∧
      Text.isBoundary 0 "abc".toList ∧ ((1 : Nat) = 3 ∨ ¬ (1 ≤ 0 ∧ 0 ≤ 3) ∧
        (∀ r ∈ editedSpans [.relocate ⟨0, 1⟩ 2],
          ¬ r.Encloses 1 ∧ ¬ r.Encloses 3 ∧ ¬ r.Encloses 0) ∧
        ∀ m ∈ movedSpans [.relocate ⟨0, 1⟩ 2], ¬ m.Shares ⟨1, 3⟩ ∧ ¬ m.Encloses 0)) := by
  obtain ⟨o, ho, hstuck⟩ : ∃ o, (ofText "abc".toList).attemptAll [.relocate ⟨0, 1⟩ 2] = some o ∧
      o.apply (.relocate ⟨1, 3⟩ 0) = .error .stuck := ⟨_, rfl, by decide +kernel⟩
  refine ⟨o, ho, hstuck, fun hiff => ?_⟩
  have hrule : ∀ m ∈ movedSpans [.relocate ⟨0, 1⟩ 2], ¬ m.Shares ⟨1, 3⟩ ∧ ¬ m.Encloses 0 := by
    intro m hm
    obtain rfl : m = ⟨0, 1⟩ := by simpa [movedSpans, moves, Edit.move?] using hm
    simp [Span.Shares, Span.Encloses, Span.Meets]
  obtain ⟨o', ho'⟩ := hiff.mpr ⟨⟨by decide, by decide +kernel, by decide +kernel⟩,
    by decide +kernel, Or.inr ⟨by decide, by decide, hrule⟩⟩
  rw [hstuck] at ho'
  cases ho'

end Overlay
end GadgetBuild
