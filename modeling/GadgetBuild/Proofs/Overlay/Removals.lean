import GadgetBuild.Proofs.Overlay.Progress
import GadgetBuild.Proofs.Overlay.Runs
import GadgetBuild.Proofs.Text.Splice

/-!
Overlays under removals alone. Removals of spans that do not meet are all accepted, in any order,
and what is left is the text without the characters in those spans.
-/

namespace GadgetBuild

namespace Text

/-- A text that starts at an offset, without the characters in spans. -/
def without (removed : List Span) : Nat → Text → Text
  | _, [] => []
  | offset, c :: t =>
    if ∃ s ∈ removed, s.Has offset then without removed (offset + c.utf8Size) t
    else c :: without removed (offset + c.utf8Size) t

variable {removed : List Span}

theorem without_append (offset : Nat) (t u : Text) : without removed offset (t ++ u) =
    without removed offset t ++ without removed (offset + t.size) u := by
  induction t generalizing offset with
  | nil => rfl
  | cons c t ih =>
    rw [List.cons_append, without, without, ih, size_cons, Nat.add_assoc]
    split <;> rfl

/-- Only the spans that have a character of the text matter. -/
theorem without_congr {t : Text} (h : ∀ i < t.size,
    (∃ s ∈ removed, s.Has (offset + i)) ↔ ∃ s ∈ removed', s.Has (offset' + i)) :
    without removed offset t = without removed' offset' t := by
  induction t generalizing offset offset' with
  | nil => rfl
  | cons c t ih =>
    have hpos := c.utf8Size_pos
    have hfirst := h 0 (by rw [size_cons]; omega)
    have hrest : without removed (offset + c.utf8Size) t =
        without removed' (offset' + c.utf8Size) t := by
      refine ih fun i hi => ?_
      have := h (c.utf8Size + i) (by rw [size_cons]; omega)
      rwa [← Nat.add_assoc, ← Nat.add_assoc] at this
    rw [without, without, hrest]
    exact if_congr hfirst rfl rfl

theorem without_nil (offset : Nat) (t : Text) : without [] offset t = t := by
  induction t generalizing offset with
  | nil => rfl
  | cons c t ih => simp [without, ih]

/-- A text of which no character is in a span stays. -/
theorem without_eq_self {t : Text}
    (h : ∀ s ∈ removed, ∀ i < t.size, ¬ s.Has (offset + i)) : without removed offset t = t := by
  have hsame : without removed offset t = without [] offset t := by
    refine without_congr fun i hi => ?_
    simp only [List.not_mem_nil, false_and, exists_false, iff_false, not_exists, not_and]
    exact fun s hs => h s hs i hi
  rw [hsame, without_nil]

theorem without_eq_nil {t : Text} (hs : s ∈ removed)
    (h : ∀ i < t.size, s.Has (offset + i)) : without removed offset t = [] := by
  induction t generalizing offset with
  | nil => rfl
  | cons c t ih =>
    have hpos := c.utf8Size_pos
    rw [without, if_pos ⟨s, hs, h 0 (by rw [size_cons]; omega)⟩]
    refine ih fun i hi => ?_
    have := h (c.utf8Size + i) (by rw [size_cons]; omega)
    rwa [← Nat.add_assoc] at this

/-- The spans of two parts of a text are left out of each by itself. -/
theorem without_append_append {t u : Text} (hleft : ∀ s ∈ removed, s.stop ≤ offset + t.size)
    (hright : ∀ s ∈ more, offset + t.size ≤ s.start) :
    without (removed ++ more) offset (t ++ u) =
      without removed offset t ++ without more (offset + t.size) u := by
  rw [without_append]
  congr 1
  · refine without_congr fun i hi => ?_
    simp only [List.mem_append, or_and_right, exists_or, or_iff_left_iff_imp]
    rintro ⟨s, hs, hhas⟩
    have := hright s hs
    have := hhas.1
    omega
  · refine without_congr fun i hi => ?_
    simp only [List.mem_append, or_and_right, exists_or, or_iff_right_iff_imp]
    rintro ⟨s, hs, hhas⟩
    have := hleft s hs
    have := hhas.2
    omega

end Text

namespace Overlay

/-- Nothing is inserted anywhere. -/
structure Bare (w : Weave) : Prop where
  lead : w.lead = []
  trail : w.trail = []
  around : ∀ s ∈ w.segments, s.lead = [] ∧ s.trail = []

namespace Bare

variable {w : Weave}

theorem ofText (text : Text) : Bare (.ofText text) where
  lead := rfl
  trail := rfl
  around s hs := by
    rw [List.mem_singleton.mp hs]
    exact ⟨rfl, rfl⟩

theorem split (h : Bare w) (i : Nat) : Bare (w.split i) where
  lead := (Weave.split_lead i).trans h.lead
  trail := (Weave.split_trail i).trans h.trail
  around r hr := by
    rw [Weave.split_segments] at hr
    obtain ⟨s, hs, hcut⟩ := List.mem_flatMap.mp hr
    obtain ⟨hlead, htrail⟩ := h.around s hs
    unfold Segment.cut at hcut
    split at hcut
    · simp only [List.mem_cons, List.not_mem_nil, or_false] at hcut
      rcases hcut with rfl | rfl
      · exact ⟨hlead, rfl⟩
      · exact ⟨rfl, htrail⟩
    · rw [List.mem_singleton.mp hcut]
      exact ⟨hlead, htrail⟩

theorem modify (h : Bare w) (which : Segment → Bool)
    (hf : ∀ s : Segment, s.lead = [] ∧ s.trail = [] → (f s).lead = [] ∧ (f s).trail = []) :
    Bare (w.modify which f) where
  lead := h.lead
  trail := h.trail
  around r hr := by
    obtain ⟨s, hs, rfl⟩ := List.mem_map.mp hr
    split
    · exact hf s (h.around s hs)
    · exact h.around s hs

theorem remove {s : Span} (h : Bare w) (hw : w.remove s = some w') : Bare w' := by
  have hsplit := (h.split s.start).split s.stop
  have hwipe : ∀ r : Segment, r.lead = [] ∧ r.trail = [] → r.wipe.lead = [] ∧ r.wipe.trail = [] :=
    fun _ _ => ⟨rfl, rfl⟩
  obtain ⟨b, inner, -, -, rfl⟩ := Weave.replace_eq_some_iff.mp hw
  exact (hsplit.modify _ hwipe).modify _ hwipe

end Bare

/-- Without seams each segment starts where the one before it stops. -/
theorem Joined.ordered (h : Joined [] a l) (hsolid : ∀ s ∈ l, s.start < s.stop) :
    (∀ s ∈ l, a ≤ s.start) ∧ l.Pairwise fun s r => s.stop ≤ r.start := by
  induction l generalizing a with
  | nil => exact ⟨by simp, .nil⟩
  | cons s l ih =>
    obtain ⟨rfl | ⟨m, hm, -⟩, hl⟩ := h
    · obtain ⟨hbounds, hordered⟩ := ih hl fun r hr => hsolid r (List.mem_cons_of_mem _ hr)
      have hs := hsolid s List.mem_cons_self
      refine ⟨fun r hr => ?_, List.pairwise_cons.mpr ⟨hbounds, hordered⟩⟩
      rcases List.mem_cons.mp hr with rfl | hr
      · exact Nat.le_refl _
      · have := hbounds r hr
        omega
    · cases hm

section

variable {text : Text} {replaced : List (Span × Text)} {named order : List Nat} {w : Weave}
  {l : List Segment}

/-- Without moves the segments are shown in the order of the text. -/
theorem Arranged.tiles (h : Arranged text [] named order w l) : Tiles 0 l text := by
  have hsolid : ∀ s ∈ l, s.start < s.stop := fun s hs => h.shows.tiles.solid s (h.shows.mem.mp hs)
  have hl : l = w.segments := by
    refine h.shows.perm.eq_of_pairwise (fun s r hs _ hsr hrs => ?_) (h.joined.ordered hsolid).2
      h.shows.tiles.ordered
    have := hsolid s hs
    have := h.shows.tiles.solid r ‹_›
    omega
  rw [hl]
  exact h.shows.tiles

/-- A segment shows the text that its removals leave of it. -/
theorem Layout.body_eq_without (h : Layout text replaced moved named order w l)
    (hempty : ∀ x ∈ replaced, x.2 = []) (hs : s ∈ l) :
    s.body = Text.without (replaced.map (·.1)) s.start s.text := by
  have hstop : s.stop = s.start + Text.size s.text := rfl
  cases hc : s.content with
  | some content =>
    have hx := (h.replaced s.span content).mpr ⟨s, hs, rfl, hc⟩
    obtain rfl : content = [] := hempty _ hx
    rw [Segment.body, hc, Option.getD_some, Text.without_eq_nil (List.mem_map.mpr ⟨_, hx, rfl⟩)]
    exact fun i hi => ⟨Nat.le_add_right _ _, by
      change s.start + i < s.stop
      omega⟩
  | none =>
    rw [Segment.body, hc, Option.getD_none, Text.without_eq_self]
    intro r hr i hi hhas
    obtain ⟨⟨r, content⟩, hx, rfl⟩ := List.mem_map.mp hr
    obtain ⟨u, hu, rfl, hcontent⟩ := (h.replaced r content).mp hx
    have hsi : s.span.Has (s.start + i) := ⟨Nat.le_add_right _ _, by
      change s.start + i < s.stop
      omega⟩
    obtain rfl := h.shows.eq_of_has hs hu hsi hhas
    rw [hc] at hcontent
    cases hcontent

theorem Tiles.flatMap_without {removed : List Span} (h : Tiles a l text) :
    l.flatMap (fun s => Text.without removed s.start s.text) = Text.without removed a text := by
  induction l generalizing a text with
  | nil =>
    obtain rfl : text = [] := h
    rfl
  | cons s l ih =>
    obtain ⟨rfl, -, rest, rfl, hl⟩ := h
    rw [List.flatMap_cons, ih hl, Text.without_append]
    rfl

theorem Layout.render_eq_without (h : Layout text replaced [] named order w l) (hbare : Bare w)
    (hempty : ∀ x ∈ replaced, x.2 = []) :
    w.render = some (Text.without (replaced.map (·.1)) 0 text) := by
  have hshow : ∀ s ∈ l, s.render = Text.without (replaced.map (·.1)) s.start s.text := by
    intro s hs
    obtain ⟨hlead, htrail⟩ := hbare.around s (h.shows.mem.mp hs)
    rw [Segment.render, hlead, htrail, List.append_nil, List.nil_append,
      h.body_eq_without hempty hs]
  rw [Weave.render, h.shows.shown_eq, Option.map_some, hbare.lead, hbare.trail, List.append_nil,
    List.nil_append, List.flatMap_congr hshow, h.toArranged.tiles.flatMap_without]

end

/-- What removals say: which spans they replace, that they move nothing, and which offsets they
name. -/
theorem replacements_removals {spans : List Span} (h : ∀ s ∈ spans, s.start < s.stop) :
    replacements (spans.map .remove) = spans.map fun s => (s, []) := by
  rw [replacements, List.filterMap_map]
  refine (List.filterMap_congr fun s hs => ?_).trans (congrFun List.filterMap_eq_map' spans)
  have := h s hs
  exact if_neg (by omega)

theorem moves_removals (spans : List Span) : moves (spans.map .remove) = [] := by
  rw [moves, List.filterMap_map]
  exact List.filterMap_eq_nil_iff.mpr fun s _ => rfl

theorem unnested_removals (spans : List Span) : Unnested (spans.map .remove) := by
  intro m hm
  rw [moves_removals] at hm
  cases hm

theorem mem_offsets_removals {spans : List Span} (h : k ∈ offsets (spans.map .remove)) :
    ∃ s ∈ spans, k = s.start ∨ k = s.stop := by
  rw [offsets, List.flatMap_map] at h
  obtain ⟨s, hs, hk⟩ := List.mem_flatMap.mp h
  refine ⟨s, hs, ?_⟩
  change k ∈ (if s.start = s.stop then [] else [s.start, s.stop]) at hk
  split at hk
  · cases hk
  · simpa using hk

/-- Spans of a text that share no character. -/
structure Separate (text : Text) (spans : List Span) : Prop where
  inText : ∀ s ∈ spans, History.InText text s
  solid : ∀ s ∈ spans, s.start < s.stop
  apart : spans.Pairwise fun a b => ¬ a.Meets b.start b.stop

namespace Separate

variable {text : Text} {spans : List Span}

theorem sublist (h : Separate text spans) (hsub : List.Sublist fewer spans) :
    Separate text fewer where
  inText s hs := h.inText s (hsub.subset hs)
  solid s hs := h.solid s (hsub.subset hs)
  apart := h.apart.sublist hsub

theorem append_left (h : Separate text (spans ++ more)) : Separate text spans :=
  h.sublist (List.sublist_append_left spans more)

theorem append (h : Separate text spans) (hmore : Separate text more)
    (hbetween : ∀ s ∈ spans, ∀ r ∈ more, ¬ s.Meets r.start r.stop) :
    Separate text (spans ++ more) where
  inText := List.forall_mem_append.mpr ⟨h.inText, hmore.inText⟩
  solid := List.forall_mem_append.mpr ⟨h.solid, hmore.solid⟩
  apart := List.pairwise_append.mpr ⟨h.apart, hmore.apart, hbetween⟩

theorem unmet (h : Separate text (spans ++ [s])) : ∀ r ∈ spans, ¬ r.Meets s.start s.stop :=
  fun r hr => (List.pairwise_append.mp h.apart).2.2 r hr s (List.mem_singleton.mpr rfl)

/-- Spans that follow each other are separate. -/
theorem of_marks (h : Text.Marks 0 spans text) : Separate text spans where
  inText s hs := by
    obtain ⟨p, m, q, rfl, hstart, hstop⟩ := h.exists_part hs
    rw [Nat.zero_add] at hstart
    have hend : s.stop = Text.size (p ++ m) := by
      rw [Text.size_append, hstop, hstart]
    refine ⟨by omega, ?_, ?_⟩
    · rw [hstart]
      exact Text.isBoundary_size_append p (m ++ q)
    · rw [hend, ← List.append_assoc]
      exact Text.isBoundary_size_append (p ++ m) q
  solid s hs := (h.bounds s hs).2.1
  apart := h.ordered.imp fun {a b} hle (hmeets : a.Meets b.start b.stop) =>
    Nat.not_lt.mpr hle hmeets.2

/-- No removal covers an end of one before it. -/
theorem tidy (h : Separate text spans) : Tidy text (spans.map .remove) := by
  induction spans using List.reverseRecOn with
  | nil => exact .nil
  | append_singleton spans s ih =>
    rw [List.map_append]
    refine (ih h.append_left).concat ?_ ?_
    · rintro ⟨⟨r, c⟩, hr, k, hk, hin⟩
      obtain ⟨-, hr | ⟨hr, -⟩⟩ := Edit.replacement?_eq_some_iff.mp hr
      · cases hr
      · obtain rfl := Edit.remove.inj hr
        obtain ⟨u, hu, hend⟩ := mem_offsets_removals hk
        have hunmet := h.unmet u hu
        have hsolid := h.append_left.solid u hu
        unfold Span.Meets at hunmet
        dsimp only at hin
        omega
    · rintro ⟨m, hm, -⟩
      cases hm

/-- Removals of separate spans are accepted one after the other. -/
theorem accepted (h : Separate text spans) :
    ∃ o, Accepted text (spans.map .remove) o ∧ Bare o.weave := by
  induction spans using List.reverseRecOn with
  | nil => exact ⟨_, .start, .ofText text⟩
  | append_singleton spans s ih =>
    obtain ⟨o, run, hbare⟩ := ih h.append_left
    have hs := h.solid s (by simp)
    have hallow : o.history.Allows text (.remove s) := by
      refine ⟨h.inText s (by simp), fun _ => ⟨fun r hr => ?_, fun m hm => ?_⟩⟩
      · obtain ⟨c, hc⟩ := run.mem_edited.mp hr
        rw [replacements_removals h.append_left.solid] at hc
        obtain ⟨r', hr', he⟩ := List.mem_map.mp hc
        obtain ⟨rfl, -⟩ := Prod.mk.inj he
        exact h.unmet r' hr'
      · obtain ⟨i, hi⟩ := run.mem_moved.mp hm
        rw [moves_removals] at hi
        cases hi
    have hunnested : Unnested (spans.map .remove ++ [.remove s]) := by
      rw [← List.map_singleton, ← List.map_append]
      exact unnested_removals _
    obtain ⟨w, hw⟩ := run.exists_apply hallow hunnested h.append_left.tidy.shifts
    rw [List.map_append]
    refine ⟨_, .step run hallow hw, ?_⟩
    rw [Weave.apply, if_neg (by omega)] at hw
    exact hbare.remove hw

/-- What is left is the text without the characters of the spans, whatever their order. -/
theorem render_removals (h : Separate text spans) :
    ∃ o, (ofText text).applyAll (spans.map .remove) = .ok o ∧
      o.render = some (Text.without spans 0 text) := by
  obtain ⟨o, run, hbare⟩ := h.accepted
  refine ⟨o, run.applyAll, ?_⟩
  by_cases htext : text = []
  · subst htext
    have hnone : spans = [] := by
      refine List.eq_nil_iff_forall_not_mem.mpr fun s hs => ?_
      have hle := Text.isBoundary_le (h.inText s hs).2.2
      have hsolid := h.solid s hs
      rw [Text.size_nil] at hle
      omega
    subst hnone
    obtain rfl : ofText [] = o := Except.ok.inj run.applyAll
    rfl
  · obtain ⟨l, hl⟩ := run.layout htext (unnested_removals spans) h.tidy
    rw [moves_removals, replacements_removals h.solid] at hl
    have hempty : ∀ x ∈ spans.map fun s => (s, ([] : Text)), x.2 = [] := by
      intro x hx
      obtain ⟨s, -, rfl⟩ := List.mem_map.mp hx
      rfl
    rw [Overlay.render, hl.render_eq_without hbare hempty, Text.map_fst_parts]

end Separate

end Overlay
end GadgetBuild
