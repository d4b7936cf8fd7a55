import GadgetBuild.Proofs.Overlay.Insertions
import GadgetBuild.Proofs.Overlay.Threads

/-!
The texts attached in a weave after any accepted edits. Each is all that was inserted at its offset
and side, or all since an update or a removal.
-/

namespace GadgetBuild.Overlay

variable {text : Text} {w : Weave}

/-- A text is all that was inserted at an offset and side, or all since some update or removal. -/
def Standing (edits : List Edit) (side : Side) (i : Nat) (t : Text) : Prop :=
  ∃ init rest, edits = init ++ rest ∧ t = insertedAt rest side i ∧
    ∀ e ∈ init.getLast?, e.replacement? ≠ none

theorem Standing.concat (h : Standing edits side i t) (e : Edit) :
    Standing (edits ++ [e]) side i (e.insertedAt side i t) := by
  obtain ⟨init, rest, rfl, rfl, hlast⟩ := h
  exact ⟨init, rest ++ [e], List.append_assoc .., (insertedAt_concat ..).symm, hlast⟩

/-- A replacement may have wiped everything. -/
theorem Standing.wiped (he : Edit.replacement? e ≠ none) : Standing (edits ++ [e]) side i [] := by
  refine ⟨edits ++ [e], [], (List.append_nil _).symm, rfl, fun f hf => ?_⟩
  rw [List.getLast?_concat] at hf
  exact Option.some.inj hf ▸ he

/-- `P` holds of each text attached in a weave, and of the empty text strictly inside a segment,
where nothing is attached. -/
structure Bears (P : Side → Nat → Text → Prop) (size : Nat) (w : Weave) : Prop where
  lead : P .left 0 w.lead
  trail : P .right size w.trail
  around : ∀ s ∈ w.segments, P .right s.start s.lead ∧ P .left s.stop s.trail
  inside : ∀ s ∈ w.segments, ∀ i, s.straddles i = true → ∀ side, P side i []

namespace Bears

variable {P P' : Side → Nat → Text → Prop}

theorem ofText (text : Text) (hnil : ∀ side i, P side i []) : Bears P text.size (.ofText text) where
  lead := hnil .left 0
  trail := hnil .right text.size
  around s hs := by
    rw [List.mem_singleton.mp hs]
    exact ⟨hnil _ _, hnil _ _⟩
  inside _ _ i _ side := hnil side i

theorem mono (h : Bears P size w) (hP : ∀ side i t, P side i t → P' side i t) :
    Bears P' size w where
  lead := hP _ _ _ h.lead
  trail := hP _ _ _ h.trail
  around s hs := ⟨hP _ _ _ (h.around s hs).1, hP _ _ _ (h.around s hs).2⟩
  inside s hs i hi side := hP _ _ _ (h.inside s hs i hi side)

theorem split (h : Bears P size w) (ht : Tiles 0 w.segments text)
    (hi : Text.isBoundary i text = true) : Bears P size (w.split i) := by
  rcases ht.split_cases hi with ⟨-, he⟩ | ⟨p, q, s, a, b, hcut⟩
  · rw [he]
    exact h
  · have hempty := h.inside s hcut.mem i (Segment.straddles_iff.mpr hcut.inside)
    obtain ⟨hastart, hastop, halead, hatrail⟩ := hcut.first
    obtain ⟨hbstart, hbstop, hblead, hbtrail⟩ := hcut.second
    refine ⟨(Weave.split_lead i).symm ▸ h.lead, (Weave.split_trail i).symm ▸ h.trail,
      fun r hr => ?_, fun r hr k hk => ?_⟩
    · rcases hcut.mem_iff.mp hr with rfl | rfl | hr
      · rw [hastart, hastop, halead, hatrail]
        exact ⟨(h.around s hcut.mem).1, hempty .left⟩
      · rw [hbstart, hbstop, hblead, hbtrail]
        exact ⟨hempty .right, (h.around s hcut.mem).2⟩
      · exact h.around r (hcut.mem_of_other hr)
    · obtain ⟨-, u, hu, hlo, hhi⟩ := ht.of_mem_split hi hr
      have := Segment.straddles_iff.mp hk
      exact h.inside u hu k (Segment.straddles_iff.mpr (by omega))

theorem split_span {s : Span} (h : Bears P size w) (ht : Tiles 0 w.segments text)
    (hin : History.InText text s) : Bears P size ((w.split s.start).split s.stop) :=
  (h.split ht hin.2.1).split (ht.split hin.2.1) hin.2.2

/-- What changes of a segment at most wipes what is attached to it. -/
theorem modify (h : Bears P size w) (which : Segment → Bool) (hnil : ∀ side i, P side i [])
    (hf : ∀ s, (f s).start = s.start ∧ (f s).text = s.text ∧
      ((f s).lead = s.lead ∧ (f s).trail = s.trail ∨ (f s).lead = [] ∧ (f s).trail = [])) :
    Bears P size (w.modify which f) where
  lead := h.lead
  trail := h.trail
  around r hr := by
    obtain ⟨s, hs, rfl⟩ := List.mem_map.mp hr
    obtain ⟨hstart, htext, hends⟩ := hf s
    have hstop : (f s).stop = s.stop := by
      rw [Segment.stop, hstart, htext]
      rfl
    split
    · rw [hstart, hstop]
      rcases hends with ⟨hlead, htrail⟩ | ⟨hlead, htrail⟩
      · rw [hlead, htrail]
        exact h.around s hs
      · rw [hlead, htrail]
        exact ⟨hnil _ _, hnil _ _⟩
    · exact h.around s hs
  inside _ _ i _ side := hnil side i

theorem replace {s : Span} (h : Bears P text.size w) (ht : Tiles 0 w.segments text)
    (hin : History.InText text s) (hnil : ∀ side i, P side i [])
    (hf : ∀ r, (f r).start = r.start ∧ (f r).text = r.text ∧
      ((f r).lead = r.lead ∧ (f r).trail = r.trail ∨ (f r).lead = [] ∧ (f r).trail = []))
    (hw : w.replace s f = some w') : Bears P text.size w' := by
  obtain ⟨b, inner, -, -, rfl⟩ := Weave.replace_eq_some_iff.mp hw
  exact ((h.split_span ht hin).modify _ hnil hf).modify _ hnil fun _ =>
    ⟨rfl, rfl, Or.inr ⟨rfl, rfl⟩⟩

theorem relocate {s : Span} (h : Bears P text.size w) (ht : Tiles 0 w.segments text)
    (hin : History.InText text s) (hi : Text.isBoundary i text = true)
    (hw : w.relocate s i = some w') : Bears P text.size w' := by
  have hsplit := (h.split_span ht hin).split (ht.split_span hin) hi
  obtain ⟨b, c, -, -, rfl⟩ := Weave.relocate_eq_some_iff.mp hw
  exact ⟨hsplit.lead, hsplit.trail, hsplit.around, hsplit.inside⟩

/-- What an insertion adds to is all that it may change. -/
theorem insert (h : Bears P text.size w) (ht : Tiles 0 w.segments text)
    (hi : Text.isBoundary i text = true) (he : e = Edit.insert side place i content)
    (hP : ∀ side k t, P side k t → P' side k (e.insertedAt side k t)) :
    Bears P' text.size (w.insert side place i content) := by
  have hsize : (w.split i).size = text.size := by rw [Weave.size, (ht.split hi).text_eq]
  have hsplit := h.split ht hi
  rw [Weave.insert_eq ht hi, ← he]
  refine ⟨hP _ _ _ hsplit.lead, ?_, fun r hr => ?_, fun r hr k hk side' => ?_⟩
  · rw [Weave.attach, hsize]
    exact hP _ _ _ hsplit.trail
  · obtain ⟨s, hs, rfl⟩ := List.mem_map.mp hr
    exact ⟨hP _ _ _ (hsplit.around s hs).1, hP _ _ _ (hsplit.around s hs).2⟩
  · obtain ⟨s, hs, rfl⟩ := List.mem_map.mp hr
    have hki : ¬ i = k := by
      rintro rfl
      have hclear : s.straddles i = false := ht.split_cutAt hi s hs
      exact absurd hk (hclear ▸ Bool.false_ne_true)
    have hnil : e.insertedAt side' k [] = [] := by
      rw [he]
      exact if_neg fun hboth => hki hboth.2
    exact hnil ▸ hP _ _ _ (hsplit.inside s hs k hk side')

end Bears

/-- After any accepted edits, what is attached is all that was inserted since some replacement. -/
theorem Accepted.bears (run : Accepted text edits o) (htext : text ≠ []) :
    Bears (Standing edits) text.size o.weave := by
  induction run with
  | start => exact .ofText text fun _ _ => ⟨[], [], rfl, rfl, by simp⟩
  | @step edits o e w run allowed made ih =>
    have htiles := run.tiles htext
    have hconcat : ∀ side i t, Standing edits side i t →
        Standing (edits ++ [e]) side i (e.insertedAt side i t) := fun _ _ _ h => h.concat e
    cases e with
    | insert side place i content =>
      obtain rfl := Option.some.inj made
      exact ih.insert htiles allowed.1.2.1 rfl hconcat
    | update s content =>
      have hne := allowed.2.1
      have hnil : ∀ side i, Standing (edits ++ [.update s content]) side i [] := fun _ _ =>
        .wiped (by simp [Edit.replacement?, hne])
      rw [Weave.apply, if_neg hne] at made
      exact (ih.mono hconcat).replace (f := fun r => { r with content := some content }) htiles
        allowed.1 hnil (fun r => ⟨rfl, rfl, Or.inl ⟨rfl, rfl⟩⟩) made
    | remove s =>
      dsimp only [Weave.apply] at made
      split at made
      · obtain rfl := Option.some.inj made
        exact ih.mono hconcat
      · rename_i hne
        have hnil : ∀ side i, Standing (edits ++ [.remove s]) side i [] := fun _ _ =>
          .wiped (by simp [Edit.replacement?, hne])
        exact (ih.mono hconcat).replace (f := Segment.wipe) htiles allowed.1 hnil
          (fun r => ⟨rfl, rfl, Or.inr ⟨rfl, rfl⟩⟩) made
    | relocate s i =>
      dsimp only [Weave.apply] at made
      split at made
      · obtain rfl := Option.some.inj made
        exact ih.mono hconcat
      · exact (ih.mono hconcat).relocate htiles allowed.1 allowed.2.1.2.1 made

end GadgetBuild.Overlay
