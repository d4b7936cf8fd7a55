import GadgetBuild.Proofs.Overlay.Steps

/-!
When the rendered text keeps the promise of its edits. A tidy run loses and doubles nothing, and
the first edit that is not tidy breaks the promise unless nothing that it hides is to be shown.
-/

namespace GadgetBuild.Overlay

variable {text : Text}

/-- A run with a last edit. -/
theorem Accepted.exists_last (h : Accepted text (edits ++ [e]) o') :
    ∃ o, Accepted text edits o ∧ o.history.Allows text e ∧ o.weave.apply e = some o'.weave := by
  generalize hall : edits ++ [e] = all at h
  cases h with
  | start => simp at hall
  | @step init o f w run allowed made =>
    obtain ⟨rfl, hf⟩ := List.append_inj' hall rfl
    obtain rfl := (List.cons.inj hf).1
    exact ⟨o, run, allowed, made⟩

/-- No character is in an empty text. -/
theorem Accepted.conserves_nil (run : Accepted [] edits o) :
    ∃ gs, o.glyphs = some gs ∧ Conserves edits o gs := by
  have hglyphs := glyphs_of_shown run.shown_of_nil
  refine ⟨_, hglyphs, render_of_glyphs hglyphs, ?_, ?_, ?_⟩
  · intro p c q ht
    rw [run.text_eq] at ht
    cases p <;> cases ht
  · intro p c q ht
    rw [run.text_eq] at ht
    cases p <;> cases ht
  · rintro ⟨s, content⟩ hr
    obtain ⟨hin, hs⟩ := run.of_mem_replacements hr
    have := Text.isBoundary_le hin.2.2
    rw [Text.size_nil] at this
    omega

theorem Accepted.not_loses_nil (run : Accepted [] edits o) (allowed : o.history.Allows [] e) :
    ¬ Loses [] edits e := by
  obtain ⟨hr, hm, -⟩ := run.kinds_of_nil allowed
  rintro (⟨x, hx, -⟩ | ⟨m, hin, -⟩)
  · rw [hr] at hx
    cases hx
  · rw [hm] at hin
    cases hin

/-- A tidy run of accepted edits loses and doubles nothing. -/
theorem Accepted.conserves (run : Accepted text edits o) (hun : Unnested edits)
    (htidy : Tidy text edits) : ∃ gs, o.glyphs = some gs ∧ Conserves edits o gs := by
  by_cases htext : text = []
  · subst htext
    exact run.conserves_nil
  · obtain ⟨l, h⟩ := run.layout htext hun htidy
    have hshows := h.shows
    rw [← run.text_eq] at hshows
    exact ⟨_, glyphs_of_shown hshows.shown_eq, hshows.conserves h.replaced hshows.shown_eq .rfl⟩

/-- The last part of a span that is replaced over a named offset stays. -/
theorem Accepted.not_conserves_of_overruns (run : Accepted text edits o)
    (allowed : o.history.Allows text e) (made : o.weave.apply e = some o'.weave)
    (htext : o'.text = text)
    (h : Layout text (replacements edits) (moves edits) (offsets edits) order o.weave l)
    (hover : Overruns edits e) :
    ∃ gs, o'.glyphs = some gs ∧ ¬ Conserves (edits ++ [e]) o' gs := by
  obtain ⟨⟨s, content⟩, he, k, hk, hlo, hhi⟩ := hover
  dsimp only at hlo hhi
  obtain ⟨hin, hs, hfree⟩ := run.allows_replacement allowed he
  obtain ⟨f, hf, hprops⟩ := o.weave.apply_of_replacement he
  obtain ⟨l', h'⟩ := h.split_span hin fun r hr => Span.not_meets_ends (hfree r hr) hs
  obtain ⟨u, hu, hus⟩ := h'.shows.tiles.exists_stop
    (fun r hr => h'.clear s.stop (by simp) r (h'.shows.mem.mpr hr)) (by omega)
    (by simpa using Text.isBoundary_le hin.2.2)
  have hul := h'.shows.mem.mpr hu
  have hsolid := h'.shows.tiles.solid u hu
  have hstart := Segment.not_straddles_iff.mp (h'.clear s.start (by simp) u hul)
  have hinside := Segment.not_straddles_iff.mp (h'.clear k (by simp [hk]) u hul)
  have hnone := h'.content_eq_none hul hfree
    ⟨show u.start < s.stop by omega, show s.start < u.stop by omega⟩
  obtain ⟨m, hm, hum⟩ := h'.shows.replace_many (fun r => ⟨(hprops r).1, (hprops r).2.1⟩) hul
    (by omega) hus (hf.symm.trans made)
  obtain ⟨p, c, q, ht, hp, hold⟩ := h'.shows.tiles.exists_first hu hnone
  rw [Nat.zero_add] at hp
  have hhas : s.Has p.size := ⟨by omega, by omega⟩
  refine ⟨_, glyphs_of_shown hm.shown_eq, fun hc => ?_⟩
  have hgone := hc.gone p c q (htext.trans ht)
    ⟨(s, content), by simp [mem_replacements_singleton, Option.mem_def.mp he], hhas⟩
  rw [count_glyphs_old, hp] at hgone
  exact List.count_eq_zero.mp hgone (List.mem_flatMap.mpr ⟨u, hum, hold⟩)

/-- Hidden segments are missed, unless they were removed. -/
theorem Layout.not_conserves {named order : List Nat} {moved : List (Span × Nat)}
    (h : Layout o.text (replacements edits) moved named order w (p ++ (run ++ q)))
    (hu : u ∈ run) (hne : u.content ≠ some []) :
    ¬ Conserves edits o (o.weave.glyphs (p ++ q)) := by
  have hul : u ∈ p ++ (run ++ q) := by simp [hu]
  have hhas : u.span.Has u.start :=
    ⟨Nat.le_refl _, h.shows.tiles.solid u (h.shows.mem.mp hul)⟩
  intro hc
  cases hcontent : u.content with
  | none =>
    obtain ⟨x, c, y, ht, hx, -⟩ := h.shows.tiles.exists_first (h.shows.mem.mp hul) hcontent
    rw [Nat.zero_add] at hx
    have hkept := hc.kept x c y ht fun r hr hrhas => by
      obtain ⟨v, hv, hvr, hvc⟩ := (h.replaced r.1 r.2).mp hr
      rw [hx, ← hvr] at hrhas
      rw [h.shows.eq_of_has hv hul hrhas hhas, hcontent] at hvc
      exact absurd hvc (by simp)
    rw [count_glyphs_old, h.shows.count_hidden hu] at hkept
    · cases hkept
    · intro r hr hg
      apply h.shows.eq_of_has hr hul (Segment.span_has_of_old hg)
      rw [hx]
      exact hhas
  | some content =>
    have hreplaced := hc.replaced (u.span, content)
      ((h.replaced u.span content).mpr ⟨u, hul, rfl, hcontent⟩)
      fun hnil => hne (hcontent.trans (congrArg some hnil))
    rw [count_glyphs_new, h.shows.count_hidden hu] at hreplaced
    · cases hreplaced
    · intro r hr hg
      exact h.shows.eq_of_start hr hul (Segment.mem_glyphs_new.mp hg).1

/-- The span is removed exactly if all its segments are. -/
theorem Layout.removed_iff {replaced : List (Span × Text)} {named order : List Nat}
    (h : Layout text replaced moved named order w (p ++ (run ++ q)))
    (hrun : Run s run first last) :
    (∀ u ∈ run, u.content = some []) ↔
      ¬ ∃ k, s.Has k ∧ ∀ r ∈ replaced, r.2 = [] → ¬ r.1.Has k := by
  constructor
  · rintro hall ⟨k, hk, hnot⟩
    obtain ⟨u, hu, huk⟩ := List.mem_flatMap.mp (hrun.has_iff.mpr hk)
    exact hnot (u.span, []) ((h.replaced _ _).mpr ⟨u, by simp [hu], rfl, hall u hu⟩) rfl
      (Segment.mem_bytes.mp huk)
  · intro hnot u hu
    have hul : u ∈ p ++ (run ++ q) := by simp [hu]
    have hhas : u.span.Has u.start :=
      ⟨Nat.le_refl _, h.shows.tiles.solid u (h.shows.mem.mp hul)⟩
    by_contra hne
    refine hnot ⟨u.start, ?_, ?_⟩
    · exact hrun.has_iff.mp (List.mem_flatMap.mpr ⟨u, hu, Segment.mem_bytes.mpr hhas⟩)
    · rintro ⟨r, content⟩ hr rfl hrhas
      obtain ⟨v, hv, rfl, hvc⟩ := (h.replaced r []).mp hr
      rw [h.shows.eq_of_has hv hul hrhas hhas] at hvc
      exact hne hvc

/-- A move of a span to where it stands hides it, unless nothing stands before it. -/
theorem Accepted.conserves_iff_of_in_place (run : Accepted text edits o)
    (allowed : o.history.Allows text e) (made : o.weave.apply e = some o'.weave)
    (htext : o'.text = text) (hun : Unnested (edits ++ [e])) (he : Edit.move? e = some (s, i))
    (h : Layout text (replacements edits) (moves edits) named order o.weave l)
    (hplace : [s.stop - 1, i] <:+: order) :
    ∃ gs, o'.glyphs = some gs ∧ (Conserves (edits ++ [e]) o' gs ↔
      ¬ (order.head? ≠ some s.start ∧
        ∃ k, s.Has k ∧ ∀ r ∈ replacements edits, r.2 = [] → ¬ r.1.Has k)) := by
  obtain ⟨hin, hs, -⟩ := run.allows_move allowed he
  obtain ⟨l', h'⟩ := run.split_move allowed he h
  obtain ⟨p, mid, q, first, last, rfl, hrun, w, hw, hshown⟩ := h'.relocate_in_place hs
    (Text.isBoundary_le hin.2.2) (by simp) (by simp) (run.seamless_move allowed hun he) hplace
  rw [o.weave.apply_of_move he, hw] at made
  rw [Option.some.inj made] at hshown
  have hnone : replacements [e] = [] := by simp [replacements, Edit.replacement?_of_move he]
  have hreplaced : replacements (edits ++ [e]) = replacements edits := by
    rw [replacements_append, hnone, List.append_nil]
  rw [← hreplaced] at h' ⊢
  rw [← htext] at h'
  refine ⟨_, glyphs_of_shown hshown, ?_⟩
  rw [ne_eq, hrun.head_iff hs h'.toArranged]
  by_cases hp : p = []
  · refine iff_of_true (h'.shows.conserves h'.replaced hshown ?_) fun hnot => hnot.1 hp
    rw [if_pos hp, hp, List.nil_append]
    exact .rfl
  · rw [if_neg hp] at hshown ⊢
    by_cases hall : ∀ u ∈ mid, u.content = some []
    · exact iff_of_true (h'.shows.conserves h'.replaced hshown (.skip hall)) fun hnot =>
        (h'.removed_iff hrun).mp hall hnot.2
    · have hsome := not_not.mp fun hnot => hall ((h'.removed_iff hrun).mpr hnot)
      refine iff_of_false ?_ fun hnot => hnot ⟨hp, hsome⟩
      simp only [not_forall] at hall
      obtain ⟨u, hu, hne⟩ := hall
      exact h'.not_conserves hu hne

/-- After a tidy run, the next edit that is accepted leaves the text rendered, and it loses and
doubles nothing, exactly if it neither replaces a span over an offset named before nor moves one that
is seen to where it stands behind others. -/
theorem conserves_iff (happlied : (ofText text).applyAll (edits ++ [e]) = .ok o)
    (hun : Unnested (edits ++ [e])) (htidy : Tidy text edits) :
    ∃ gs, o.glyphs = some gs ∧ (Conserves (edits ++ [e]) o gs ↔ ¬ Loses text edits e) := by
  have hrun := accepted_of_applyAll happlied
  obtain ⟨o', run, allowed, made⟩ := hrun.exists_last
  by_cases htext : text = []
  · subst htext
    obtain ⟨gs, hgs, hc⟩ := hrun.conserves_nil
    exact ⟨gs, hgs, iff_of_true hc (run.not_loses_nil allowed)⟩
  obtain ⟨l, h⟩ := run.layout htext hun.append_left htidy
  by_cases hover : Overruns edits e
  · obtain ⟨gs, hgs, hc⟩ := run.not_conserves_of_overruns allowed made hrun.text_eq h hover
    exact ⟨gs, hgs, iff_of_false hc fun hnot => hnot (Or.inl hover)⟩
  by_cases hplace : InPlace text edits e
  · obtain ⟨⟨s, i⟩, he, hfix⟩ := hplace
    obtain ⟨gs, hgs, hc⟩ :=
      run.conserves_iff_of_in_place allowed made hrun.text_eq hun he h hfix
    refine ⟨gs, hgs, hc.trans (not_congr ⟨fun hl => Or.inr ⟨(s, i), he, hfix, hl⟩, ?_⟩)⟩
    rintro (hl | ⟨m, hm, _, hl⟩)
    · exact absurd hl hover
    · obtain rfl := Option.mem_unique hm he
      exact hl
  · obtain ⟨gs, hgs, hc⟩ := hrun.conserves hun (htidy.concat hover hplace)
    exact ⟨gs, hgs, iff_of_true hc (not_loses hover hplace)⟩

/-- A move, an update of what is behind it, and a removal of what it went past. -/
def tidyEdits : List Edit :=
  [.relocate ⟨0, 2⟩ 4, .update ⟨4, 5⟩ ['x']]

theorem tidyEdits_conserve : ∃ o, (ofText "abcdef".toList).applyAll
    (tidyEdits ++ [.remove ⟨2, 4⟩]) = .ok o ∧ Unnested (tidyEdits ++ [.remove ⟨2, 4⟩]) ∧
      Tidy "abcdef".toList tidyEdits ∧
      ∃ gs, o.glyphs = some gs ∧ Conserves (tidyEdits ++ [.remove ⟨2, 4⟩]) o gs := by
  have hun : Unnested (tidyEdits ++ [.remove ⟨2, 4⟩]) := by decide +kernel
  have htidy : Tidy "abcdef".toList tidyEdits :=
    (Tidy.nil.concat (e := .relocate ⟨0, 2⟩ 4) (by decide +kernel) (by decide +kernel)).concat
      (by decide +kernel) (by decide +kernel)
  obtain ⟨o, ho⟩ : ∃ o, (ofText "abcdef".toList).applyAll (tidyEdits ++ [.remove ⟨2, 4⟩]) = .ok o :=
    ⟨_, rfl⟩
  obtain ⟨gs, hgs, hc⟩ := conserves_iff ho hun htidy
  exact ⟨o, ho, hun, htidy, gs, hgs, hc.mpr (not_loses (by decide +kernel) (by decide +kernel))⟩

/-- A text between two characters, and then an update around both. -/
def overrun : List Edit :=
  [.insert .left .back 4 ['!'], .update ⟨2, 6⟩ ['x']]

/-- Two moves after which the first one stands before the second's target. -/
def inPlace : List Edit :=
  [.relocate ⟨6, 8⟩ 4, .relocate ⟨2, 4⟩ 6]

theorem edits_lose :
    (∃ o gs, (ofText "abcdefgh".toList).applyAll overrun = .ok o ∧ Unnested overrun ∧
      o.glyphs = some gs ∧ ¬ Conserves overrun o gs) ∧
    ∃ o gs, (ofText "abcdefgh".toList).applyAll inPlace = .ok o ∧ Unnested inPlace ∧
      o.glyphs = some gs ∧ ¬ Conserves inPlace o gs := by
  constructor
  · refine ⟨_, _, rfl, by decide +kernel, rfl, fun hc => ?_⟩
    have hgone := hc.gone "abcd".toList 'e' "fgh".toList (by decide +kernel)
      ⟨(⟨2, 6⟩, ['x']), by decide +kernel, by decide +kernel⟩
    revert hgone
    decide +kernel
  · refine ⟨_, _, rfl, by decide +kernel, rfl, fun hc => ?_⟩
    have hkept := hc.kept "ab".toList 'c' "defgh".toList (by decide +kernel) (by decide +kernel)
    revert hkept
    decide +kernel

end GadgetBuild.Overlay
