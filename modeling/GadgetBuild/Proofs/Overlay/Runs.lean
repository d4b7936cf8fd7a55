import GadgetBuild.Proofs.Overlay.Glyphs

/-!
Runs of edits that are accepted and of which the segments shown are known. Text that no edit has
reached is one segment, or none when it is empty.
-/

namespace GadgetBuild.Overlay

namespace Weave

variable {w : Weave}

@[simp] theorem split_lead (i : Nat) : (w.split i).lead = w.lead := by
  unfold split
  split <;> rfl

@[simp] theorem split_trail (i : Nat) : (w.split i).trail = w.trail := by
  unfold split
  split <;> rfl

@[simp] theorem modify_lead (which : Segment → Bool) (f : Segment → Segment) :
    (w.modify which f).lead = w.lead := rfl

@[simp] theorem modify_trail (which : Segment → Bool) (f : Segment → Segment) :
    (w.modify which f).trail = w.trail := rfl

/-- Neither a replacement nor a move touches what is shown before all segments and behind them. -/
theorem replace_ends (hw : w.replace s f = some w') : w'.lead = w.lead ∧ w'.trail = w.trail := by
  obtain ⟨b, inner, -, -, rfl⟩ := replace_eq_some_iff.mp hw
  simp

theorem relocate_ends (hw : w.relocate s i = some w') : w'.lead = w.lead ∧ w'.trail = w.trail := by
  obtain ⟨b, c, -, -, rfl⟩ := relocate_eq_some_iff.mp hw
  simp

end Weave

/-- A text that is shown as it is. -/
def kept (start : Nat) (t : Text) : List Segment :=
  if t = [] then [] else [⟨start, t, [], none, []⟩]

theorem kept_nil (start : Nat) : kept start [] = [] := rfl

theorem kept_of_ne_nil {t : Text} (h : t ≠ []) : kept start t = [⟨start, t, [], none, []⟩] :=
  if_neg h

theorem mem_kept {t : Text} (h : s ∈ kept start t) : s = ⟨start, t, [], none, []⟩ := by
  unfold kept at h
  split at h
  · cases h
  · exact List.mem_singleton.mp h

theorem kept_bounds {t : Text} (h : s ∈ kept start t) :
    s.start = start ∧ s.stop = start + Text.size t := by
  obtain rfl := mem_kept h
  exact ⟨rfl, rfl⟩

/-- An untouched text falls in two untouched texts. -/
theorem cut_kept {x y : Text} (hi : i = start + Text.size x) :
    (kept start (x ++ y)).flatMap (Segment.cut i) = kept start x ++ kept i y := by
  subst hi
  by_cases hx : x = []
  · subst hx
    rw [Segment.flatMap_cut_of_not_straddles, kept_nil]
    · rfl
    · intro s hs
      have := kept_bounds hs
      exact Segment.not_straddles_iff.mpr (Or.inl (by simp [this.1]))
  · by_cases hy : y = []
    · subst hy
      rw [Segment.flatMap_cut_of_not_straddles, kept_nil]
      · simp
      · intro s hs
        have := kept_bounds hs
        exact Segment.not_straddles_iff.mpr (Or.inr (by simp [this.2]))
    · rw [kept_of_ne_nil (by simp [hx]), kept_of_ne_nil hx, kept_of_ne_nil hy]
      simp [Segment.cut_eq (s := ⟨start, x ++ y, [], none, []⟩) rfl hx hy rfl]

theorem cut_before {l : List Segment} (h : ∀ s ∈ l, s.stop ≤ i) : l.flatMap (Segment.cut i) = l :=
  Segment.flatMap_cut_of_not_straddles fun s hs =>
    Segment.not_straddles_iff.mpr (Or.inr (h s hs))

theorem cut_behind {l : List Segment} (h : ∀ s ∈ l, i ≤ s.start) : l.flatMap (Segment.cut i) = l :=
  Segment.flatMap_cut_of_not_straddles fun s hs =>
    Segment.not_straddles_iff.mpr (Or.inl (h s hs))

/-- Only the segment around the offset is cut. -/
theorem cut_middle {p m q : List Segment} (hp : ∀ r ∈ p, r.stop ≤ i) (hq : ∀ r ∈ q, i ≤ r.start) :
    (p ++ (m ++ q)).flatMap (Segment.cut i) = p ++ (m.flatMap (Segment.cut i) ++ q) := by
  rw [List.flatMap_append, List.flatMap_append, cut_before hp, cut_behind hq]

/-- The edits are accepted and lead to these segments, with nothing inserted at the ends. -/
def Reaches (text : Text) (edits : List Edit) (l : List Segment) : Prop :=
  ∃ o, Accepted text edits o ∧ o.weave.Shows text l ∧ o.weave.lead = [] ∧ o.weave.trail = []

namespace Reaches

variable {text : Text}

theorem start (h : text ≠ []) : Reaches text [] (kept 0 text) := by
  refine ⟨_, .start, ?_, rfl, rfl⟩
  rw [kept_of_ne_nil h]
  exact .ofText h

theorem glyphs (h : Reaches text edits l) : ∃ o, Accepted text edits o ∧ o.weave.shown = some l ∧
    o.weave.glyphs l = .inserted [] :: l.flatMap Segment.glyphs ++ [.inserted []] := by
  obtain ⟨o, run, shows, hlead, htrail⟩ := h
  refine ⟨o, run, shows.shown_eq, ?_⟩
  rw [Weave.glyphs, hlead, htrail]

/-- A span that is one segment gives way to a new text. -/
theorem update (h : Reaches text edits l) (content : Text) (hin : History.InText text s)
    (hne : s.start ≠ s.stop)
    (hfree : ∀ r c, (r, c) ∈ replacements edits → ¬ r.Meets s.start s.stop)
    (hclear : ∀ m i, (m, i) ∈ moves edits → ¬ m.Meets s.start s.stop)
    (hcut : (l.flatMap (Segment.cut s.start)).flatMap (Segment.cut s.stop) = p ++ r :: q)
    (hstart : r.start = s.start) (hstop : r.stop = s.stop) :
    Reaches text (edits ++ [.update s content]) (p ++ { r with content := some content } :: q) := by
  obtain ⟨o, run, shows, hlead, htrail⟩ := h
  have hallow : o.history.Allows text (.update s content) := by
    refine ⟨hin, hne, ?_, ?_⟩
    · intro r hr
      obtain ⟨c, hc⟩ := run.mem_edited.mp hr
      exact hfree r c hc
    · intro m hm hmeets
      obtain ⟨i, hi⟩ := run.mem_moved.mp hm
      exact absurd hmeets (hclear m i hi)
  have hsplit := (shows.split hin.2.1).split hin.2.2
  rw [hcut] at hsplit
  obtain ⟨w, hw, hshows⟩ := hsplit.replace_one (f := fun r => { r with content := some content })
    (fun _ => ⟨rfl, rfl⟩) hstart hstop
  have hends := Weave.replace_ends hw
  have made : o.weave.apply (.update s content) = some w := (if_neg hne).trans hw
  exact ⟨_, .step run hallow made, hshows, hends.1.trans hlead, hends.2.trans htrail⟩

theorem insert_left (h : Reaches text edits l) (place : Place) (content : Text)
    (hin : Text.isBoundary i text = true) (hi : i ≠ 0)
    (hfree : ∀ r c, (r, c) ∈ replacements edits → ¬ r.Meets i i)
    (hcut : l.flatMap (Segment.cut i) = p ++ s :: q) (hstop : s.stop = i) :
    Reaches text (edits ++ [.insert .left place i content])
      (p ++ { s with trail := place.add content s.trail } :: q) := by
  obtain ⟨o, run, shows, hlead, htrail⟩ := h
  have hallow : o.history.Allows text (.insert .left place i content) := by
    refine ⟨⟨Nat.le_refl i, hin, hin⟩, ?_⟩
    intro r hr
    obtain ⟨c, hc⟩ := run.mem_edited.mp hr
    exact hfree r c hc
  have hsplit := shows.split hin
  rw [hcut] at hsplit
  refine ⟨_, .step run hallow rfl, ?_, ?_, ?_⟩
  · exact hsplit.insert_left hstop hi
  · simp only [Weave.insert, hi, if_false, Weave.modify_lead, Weave.split_lead, hlead]
  · simp only [Weave.insert, hi, if_false, Weave.modify_trail, Weave.split_trail, htrail]

/-- A span is moved back, without a move before that meets it. -/
theorem relocate (h : Reaches text edits l) (hin : History.InText text s)
    (htarget : Text.isBoundary i text = true) (hne : s.start ≠ s.stop) (hi : s.stop < i)
    (hfree : ∀ r c, (r, c) ∈ replacements edits →
      ¬ r.Meets s.start s.start ∧ ¬ r.Meets s.stop s.stop ∧ ¬ r.Meets i i)
    (hclear : ∀ m j, (m, j) ∈ moves edits → ¬ m.Meets s.start s.stop ∧ ¬ m.Meets i i)
    (hcut : ((l.flatMap (Segment.cut s.start)).flatMap (Segment.cut s.stop)).flatMap
      (Segment.cut i) = p ++ (run ++ (q ++ r)))
    (hfirst : run.head? = some first) (hstart : first.start = s.start)
    (hlast : run.getLast? = some last) (hstop : last.stop = s.stop) (hq : q ≠ [])
    (hr : ∀ s, r.head? = some s → s.start = i) (hend : r = [] → i = text.size) :
    Reaches text (edits ++ [.relocate s i]) (p ++ (q ++ (run ++ r))) := by
  obtain ⟨o, run, shows, hlead, htrail⟩ := h
  have hallow : o.history.Allows text (.relocate s i) := by
    refine ⟨hin, ⟨Nat.le_refl i, htarget, htarget⟩, fun _ => ⟨by omega, ?_, ?_⟩⟩
    · intro r hr
      obtain ⟨c, hc⟩ := run.mem_edited.mp hr
      exact hfree r c hc
    · intro m hm
      obtain ⟨j, hj⟩ := run.mem_moved.mp hm
      exact hclear m j hj
  have hsplit := ((shows.split hin.2.1).split hin.2.2).split htarget
  rw [hcut] at hsplit
  obtain ⟨w, hw, hshows⟩ := hsplit.relocate_back hfirst hstart hlast hstop hq hr hend
  have hends := Weave.relocate_ends hw
  have made : o.weave.apply (.relocate s i) = some w := (if_neg hne).trans hw
  exact ⟨_, .step run hallow made, hshows, hends.1.trans hlead, hends.2.trans htrail⟩

end Reaches
end GadgetBuild.Overlay
