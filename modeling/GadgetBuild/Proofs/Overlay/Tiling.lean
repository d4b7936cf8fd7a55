import Mathlib.Data.List.Nodup
import GadgetBuild.Overlay.Weave
import GadgetBuild.Proofs.Text.Offsets

/-!
The segments of a text in the order of the text. They tile it: each starts where the one before
stops, and none is empty. Cutting at a boundary keeps that.
-/

namespace GadgetBuild.Overlay

/-- The segments tile a text that starts at an offset. -/
def Tiles : Nat → List Segment → Text → Prop
  | _, [], t => t = []
  | a, s :: segments, t =>
    s.start = a ∧ s.text ≠ [] ∧ ∃ rest, t = s.text ++ rest ∧ Tiles s.stop segments rest

theorem Segment.start_lt_stop {s : Segment} (h : s.text ≠ []) : s.start < s.stop := by
  have := Text.size_pos h
  unfold Segment.stop
  omega

theorem Segment.straddles_iff {s : Segment} : s.straddles i = true ↔ s.start < i ∧ i < s.stop := by
  simp [straddles]

theorem Segment.not_straddles_iff {s : Segment} :
    s.straddles i = false ↔ i ≤ s.start ∨ s.stop ≤ i := by
  simp only [straddles, Bool.and_eq_false_iff, decide_eq_false_iff_not, Nat.not_lt]

namespace Tiles

variable {t : Text}

theorem solid (h : Tiles a segments t) : ∀ s ∈ segments, s.start < s.stop := by
  induction segments generalizing a t with
  | nil => simp
  | cons s segments ih =>
    obtain ⟨_, hs, rest, _, htiles⟩ := h
    intro r hr
    rcases List.mem_cons.mp hr with rfl | hr
    · exact Segment.start_lt_stop hs
    · exact ih htiles r hr

theorem text_eq (h : Tiles a segments t) : segments.flatMap (·.text) = t := by
  induction segments generalizing a t with
  | nil => exact h.symm
  | cons s segments ih =>
    obtain ⟨_, _, rest, rfl, htiles⟩ := h
    rw [List.flatMap_cons, ih htiles]

/-- No segment reaches out of the text. -/
theorem bounds (h : Tiles a segments t) :
    ∀ s ∈ segments, a ≤ s.start ∧ s.stop ≤ a + Text.size t := by
  induction segments generalizing a t with
  | nil => simp
  | cons s segments ih =>
    obtain ⟨rfl, hs, rest, rfl, htiles⟩ := h
    intro r hr
    have hstop : s.stop = s.start + Text.size s.text := rfl
    rw [Text.size_append]
    rcases List.mem_cons.mp hr with rfl | hr
    · omega
    · have := ih htiles r hr
      omega

theorem ordered (h : Tiles a segments t) : segments.Pairwise fun s r => s.stop ≤ r.start := by
  induction segments generalizing a t with
  | nil => exact .nil
  | cons s segments ih =>
    obtain ⟨_, _, rest, _, htiles⟩ := h
    exact List.pairwise_cons.mpr ⟨fun r hr => (htiles.bounds r hr).1, ih htiles⟩

/-- Segments that have a character in common are the same. -/
theorem eq_of_meet (h : Tiles a segments t) (hs : s ∈ segments) (hr : r ∈ segments)
    (hsr : s.start < r.stop) (hrs : r.start < s.stop) : s = r := by
  obtain ⟨p, q, rfl⟩ := List.append_of_mem hs
  have hord := h.ordered
  rw [List.pairwise_append, List.pairwise_cons] at hord
  rcases List.mem_append.mp hr with hr | hr
  · have := hord.2.2 r hr s (by simp)
    omega
  · rcases List.mem_cons.mp hr with rfl | hr
    · rfl
    · have := hord.2.1.1 r hr
      omega

theorem eq_of_start (h : Tiles a segments t) (hs : s ∈ segments) (hr : r ∈ segments)
    (he : s.start = r.start) : s = r := by
  have := h.solid s hs
  have := h.solid r hr
  exact h.eq_of_meet hs hr (by omega) (by omega)

theorem eq_of_stop (h : Tiles a segments t) (hs : s ∈ segments) (hr : r ∈ segments)
    (he : s.stop = r.stop) : s = r := by
  have := h.solid s hs
  have := h.solid r hr
  exact h.eq_of_meet hs hr (by omega) (by omega)

/-- Nor does it matter what is shown for the segments. -/
theorem map (h : Tiles a segments t)
    (hg : ∀ s ∈ segments, (g s).start = s.start ∧ (g s).text = s.text) :
    Tiles a (segments.map g) t := by
  induction segments generalizing a t with
  | nil => exact h
  | cons s segments ih =>
    obtain ⟨rfl, hs, rest, rfl, htiles⟩ := h
    obtain ⟨hstart, htext⟩ := hg s (by simp)
    have hstop : (g s).stop = s.stop := by
      rw [Segment.stop, hstart, htext]
      rfl
    refine ⟨hstart, htext ▸ hs, rest, by rw [htext], ?_⟩
    rw [hstop]
    exact ih htiles fun r hr => hg r (by simp [hr])

/-- What stands before a segment ends where the segment starts. -/
theorem exists_split (h : Tiles a segments t) (hs : s ∈ segments) :
    ∃ p q, t = p ++ (s.text ++ q) ∧ a + Text.size p = s.start := by
  induction segments generalizing a t with
  | nil => cases hs
  | cons r segments ih =>
    obtain ⟨rfl, _, rest, rfl, htiles⟩ := h
    rcases List.mem_cons.mp hs with rfl | hs
    · exact ⟨[], rest, rfl, rfl⟩
    · obtain ⟨p, q, rfl, hp⟩ := ih htiles hs
      refine ⟨r.text ++ p, q, by simp, ?_⟩
      rw [Text.size_append, ← Nat.add_assoc]
      exact hp

theorem exists_stop (h : Tiles a segments t) (hi : ∀ s ∈ segments, s.straddles i = false)
    (hlo : a < i) (hhi : i ≤ a + Text.size t) : ∃ s ∈ segments, s.stop = i := by
  induction segments generalizing a t with
  | nil =>
    cases h
    simp at hhi
    omega
  | cons s segments ih =>
    obtain ⟨rfl, _, rest, rfl, htiles⟩ := h
    have hs := Segment.not_straddles_iff.mp (hi s (by simp))
    by_cases he : s.stop = i
    · exact ⟨s, by simp, he⟩
    · have hstop : s.stop = s.start + Text.size s.text := rfl
      rw [Text.size_append] at hhi
      obtain ⟨r, hr, he⟩ := ih htiles (fun r hr => hi r (by simp [hr])) (by omega) (by omega)
      exact ⟨r, by simp [hr], he⟩

theorem exists_start (h : Tiles a segments t) (hi : ∀ s ∈ segments, s.straddles i = false)
    (hlo : a ≤ i) (hhi : i < a + Text.size t) : ∃ s ∈ segments, s.start = i := by
  induction segments generalizing a t with
  | nil =>
    cases h
    simp at hhi
    omega
  | cons s segments ih =>
    obtain ⟨rfl, _, rest, rfl, htiles⟩ := h
    have hs := Segment.not_straddles_iff.mp (hi s (by simp))
    by_cases he : s.start = i
    · exact ⟨s, by simp, he⟩
    · have hstop : s.stop = s.start + Text.size s.text := rfl
      rw [Text.size_append] at hhi
      obtain ⟨r, hr, he⟩ := ih htiles (fun r hr => hi r (by simp [hr])) (by omega) (by omega)
      exact ⟨r, by simp [hr], he⟩

end Tiles

namespace Segment

theorem cut_of_not_straddles {s : Segment} (h : s.straddles i = false) : s.cut i = [s] := by
  simp [cut, h]

theorem flatMap_cut_of_not_straddles {segments : List Segment}
    (h : ∀ s ∈ segments, s.straddles i = false) : segments.flatMap (cut i) = segments := by
  induction segments with
  | nil => rfl
  | cons s segments ih =>
    rw [List.flatMap_cons, cut_of_not_straddles (h s (by simp)), ih fun r hr => h r (by simp [hr])]
    rfl

/-- The two parts of a segment that is cut between two parts of its text. -/
theorem cut_eq {s : Segment} (ht : s.text = x ++ y) (hx : x ≠ []) (hy : y ≠ [])
    (hi : s.start + Text.size x = i) :
    s.cut i = [{ s with text := x, trail := [] },
      ⟨i, y, [], s.content.map fun _ => [], s.trail⟩] := by
  subst hi
  have := Text.size_pos hx
  have := Text.size_pos hy
  have hs : s.straddles (s.start + Text.size x) = true := by
    rw [straddles_iff, stop, ht, Text.size_append]
    omega
  simp [cut, hs, ht]

/-- The text of a segment falls in two at an offset inside, if no character of the whole text is
cut there. -/
theorem exists_parts {s : Segment} {t : Text} (htiles : Tiles a segments t) (hs : s ∈ segments)
    (hb : Text.isBoundary (i - a) t = true) (hi : s.straddles i = true) :
    ∃ x y, s.text = x ++ y ∧ x ≠ [] ∧ y ≠ [] ∧ s.start + Text.size x = i := by
  obtain ⟨hlo, hhi⟩ := straddles_iff.mp hi
  obtain ⟨p, q, rfl, hp⟩ := htiles.exists_split hs
  have hstop : s.stop = s.start + Text.size s.text := rfl
  have hb' := Text.isBoundary_append_left (Text.isBoundary_append_right hb (by omega)) (by omega)
  obtain ⟨x, y, ht, hx⟩ := Text.isBoundary_iff.mp hb'
  refine ⟨x, y, ht, ?_, ?_, by omega⟩
  · rintro rfl
    rw [Text.size_nil] at hx
    omega
  · rintro rfl
    rw [ht, List.append_nil] at hstop
    omega

end Segment

variable {t : Text}

/-- Cutting at a boundary leaves a tiling. -/
theorem Tiles.cut (h : Tiles a segments t) (ha : a ≤ i) (hb : Text.isBoundary (i - a) t = true) :
    Tiles a (segments.flatMap (Segment.cut i)) t := by
  induction segments generalizing a t with
  | nil => exact h
  | cons s segments ih =>
    have hparts := Segment.exists_parts (s := s) h (by simp) hb
    obtain ⟨rfl, hs, rest, rfl, htiles⟩ := h
    have hstop : s.stop = s.start + Text.size s.text := rfl
    rw [List.flatMap_cons]
    cases hc : s.straddles i with
    | true =>
      obtain ⟨x, y, ht, hx, hy, hi⟩ := hparts hc
      have hlt := Segment.straddles_iff.mp hc
      rw [Segment.cut_eq ht hx hy hi, Segment.flatMap_cut_of_not_straddles]
      · refine ⟨rfl, hx, y ++ rest, by simp [ht], ?_⟩
        refine ⟨hi.symm, hy, rest, rfl, ?_⟩
        have he : i + Text.size y = s.stop := by
          rw [hstop, ht, Text.size_append]
          omega
        change Tiles (i + Text.size y) segments rest
        rwa [he]
      · intro r hr
        have := (htiles.bounds r hr).1
        exact Segment.not_straddles_iff.mpr (by omega)
    | false =>
      rw [Segment.cut_of_not_straddles hc, List.singleton_append]
      refine ⟨rfl, hs, rest, rfl, ?_⟩
      have hc := Segment.not_straddles_iff.mp hc
      by_cases hle : s.stop ≤ i
      · apply ih htiles hle
        have := Text.isBoundary_append_right hb (by omega)
        rwa [hstop, Nat.sub_add_eq]
      · rw [Segment.flatMap_cut_of_not_straddles]
        · exact htiles
        · intro r hr
          have := (htiles.bounds r hr).1
          exact Segment.not_straddles_iff.mpr (by omega)

namespace Weave

variable {w : Weave}

theorem split_segments (i : Nat) : (w.split i).segments = w.segments.flatMap (Segment.cut i) := by
  unfold split
  split
  · rename_i hnone
    refine (Segment.flatMap_cut_of_not_straddles fun s hs => ?_).symm
    simpa using List.find?_eq_none.mp hnone s hs
  · rfl

theorem modify_nil (f : Segment → Segment) :
    w.modify (fun r => ([] : List Nat).contains r.start) f = w := by
  simp [modify]

/-- What a replacement does: it changes the first segment of the span and wipes those between the
first and the last, if it comes to the last. -/
theorem replace_eq_some_iff {s : Span} : w.replace s f = some w' ↔
    ∃ b inner, ((w.split s.start).split s.stop).endingAt? s.stop = some b ∧
      (b = s.start ∧ inner = [] ∨
        b ≠ s.start ∧ ((w.split s.start).split s.stop).between s.start b = some inner) ∧
      w' = (((w.split s.start).split s.stop).modify (·.start = s.start) f).modify
        (fun r => inner.contains r.start) Segment.wipe := by
  have hbetween : ∀ w : Weave, ∀ b,
      (w.modify (·.start = s.start) f).between s.start b = w.between s.start b := fun w b => by
    simp [between, modify]
  simp only [replace, Option.bind_eq_bind, Option.bind_eq_some_iff]
  constructor
  · rintro ⟨b, hb, h⟩
    split at h
    · rename_i he
      exact ⟨b, [], hb, Or.inl ⟨he, rfl⟩, by rw [modify_nil]; exact (Option.some.inj h).symm⟩
    · rename_i hne
      obtain ⟨inner, hinner, h⟩ := Option.bind_eq_some_iff.mp h
      rw [hbetween] at hinner
      exact ⟨b, inner, hb, Or.inr ⟨hne, hinner⟩, (Option.some.inj h).symm⟩
  · rintro ⟨b, inner, hb, ⟨he, rfl⟩ | ⟨hne, hinner⟩, rfl⟩
    · exact ⟨b, hb, by rw [if_pos he, modify_nil]; rfl⟩
    · refine ⟨b, hb, ?_⟩
      rw [if_neg hne, hbetween, hinner]
      rfl

/-- What a move of a span does: it moves the segments from the first of the span to the last. -/
theorem relocate_eq_some_iff {s : Span} : w.relocate s i = some w' ↔
    ∃ b c, (((w.split s.start).split s.stop).split i).endingAt? s.stop = some b ∧
      (((w.split s.start).split s.stop).split i).chain.move s.start b
        ((((w.split s.start).split s.stop).split i).startingAt? i) = some c ∧
      w' = { ((w.split s.start).split s.stop).split i with chain := c } := by
  simp only [relocate, Option.bind_eq_bind, Option.bind_eq_some_iff, Option.pure_def,
    Option.some.injEq]
  constructor
  · rintro ⟨b, hb, c, hc, rfl⟩
    exact ⟨b, c, hb, hc, rfl⟩
  · rintro ⟨b, c, hb, hc, rfl⟩
    exact ⟨b, hb, c, hc, rfl⟩

end Weave

namespace Tiles

variable {w : Weave}

/-- Each operation of a weave leaves a tiling. -/
theorem split (h : Tiles 0 w.segments t) (hi : Text.isBoundary i t = true) :
    Tiles 0 (w.split i).segments t := by
  rw [Weave.split_segments]
  exact h.cut (Nat.zero_le i) hi

theorem modify (h : Tiles 0 w.segments t) (which : Segment → Bool)
    (hf : ∀ s, (f s).start = s.start ∧ (f s).text = s.text) :
    Tiles 0 (w.modify which f).segments t := by
  apply h.map
  intro s _
  split
  · exact hf s
  · exact ⟨rfl, rfl⟩

theorem insert (h : Tiles 0 w.segments t) (hi : Text.isBoundary i t = true) (side : Side)
    (place : Place) (content : Text) : Tiles 0 (w.insert side place i content).segments t := by
  cases side with
  | left | right =>
    rw [Weave.insert]
    split
    · exact h
    · exact (h.split hi).modify _ fun _ => ⟨rfl, rfl⟩

theorem replace {s : Span} (h : Tiles 0 w.segments t) (hstart : Text.isBoundary s.start t = true)
    (hstop : Text.isBoundary s.stop t = true)
    (hf : ∀ r, (f r).start = r.start ∧ (f r).text = r.text) (hw : w.replace s f = some w') :
    Tiles 0 w'.segments t := by
  obtain ⟨b, inner, -, -, rfl⟩ := Weave.replace_eq_some_iff.mp hw
  exact (((h.split hstart).split hstop).modify _ hf).modify _ fun _ => ⟨rfl, rfl⟩

theorem relocate {s : Span} (h : Tiles 0 w.segments t) (hstart : Text.isBoundary s.start t = true)
    (hstop : Text.isBoundary s.stop t = true) (hi : Text.isBoundary i t = true)
    (hw : w.relocate s i = some w') : Tiles 0 w'.segments t := by
  obtain ⟨b, c, -, -, rfl⟩ := Weave.relocate_eq_some_iff.mp hw
  exact ((h.split hstart).split hstop).split hi

end Tiles

end GadgetBuild.Overlay
