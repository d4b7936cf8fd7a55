import GadgetBuild.Overlay.Tracing
import GadgetBuild.Proofs.Overlay.Guards
import GadgetBuild.Proofs.Overlay.Shown

/-!
The rendered text of an overlay in parts, each with what it stems from. Rendering conserves a text
when each character outside the replaced spans comes out once, each inside one not at all, and each
new text once.
-/

namespace GadgetBuild

/-- The character that starts at the offset is in the span. -/
def Span.Has (s : Span) (i : Nat) : Prop :=
  s.start ≤ i ∧ i < s.stop

instance (s : Span) (i : Nat) : Decidable (s.Has i) :=
  inferInstanceAs (Decidable (_ ∧ _))

namespace Overlay

inductive Glyph where
  /-- The character of the text that starts at an offset. -/
  | old (offset : Nat) (c : Char)
  /-- What stands in place of a span, by the span's start. -/
  | new (start : Nat) (content : Text)
  | inserted (content : Text)
  deriving DecidableEq, Repr

def Glyph.text : Glyph → Text
  | .old _ c => [c]
  | .new _ content | .inserted content => content

/-- The characters of a text that starts at an offset. -/
def olds (start : Nat) : Text → List Glyph
  | [] => []
  | c :: t => .old start c :: olds (start + c.utf8Size) t

def Segment.glyphs (s : Segment) : List Glyph :=
  .inserted s.lead ::
    (match s.content with
      | none => olds s.start s.text
      | some content => [.new s.start content]) ++ [.inserted s.trail]

/-- The glyphs of a weave that shows these segments. -/
def Weave.glyphs (w : Weave) (l : List Segment) : List Glyph :=
  .inserted w.lead :: l.flatMap Segment.glyphs ++ [.inserted w.trail]

def glyphs (o : Overlay) : Option (List Glyph) :=
  o.weave.shown.map o.weave.glyphs

theorem olds_text (start : Nat) (t : Text) : (olds start t).flatMap Glyph.text = t := by
  induction t generalizing start with
  | nil => rfl
  | cons c t ih => rw [olds, List.flatMap_cons, ih, Glyph.text, List.singleton_append]

theorem Segment.glyphs_text (s : Segment) : s.glyphs.flatMap Glyph.text = s.render := by
  unfold glyphs render body
  cases s.content with
  | none => simp [olds_text, Glyph.text]
  | some content => simp [Glyph.text]

/-- The glyphs of an overlay make its rendered text. -/
theorem glyphs_text (o : Overlay) : o.glyphs.map (·.flatMap Glyph.text) = o.render := by
  rw [glyphs, Overlay.render, Weave.render, Option.map_map]
  refine Option.map_congr fun l _ => ?_
  have hshown : (l.flatMap Segment.glyphs).flatMap Glyph.text = l.flatMap Segment.render := by
    rw [List.flatMap_assoc]
    exact List.flatMap_congr fun s _ => s.glyphs_text
  simp [Weave.glyphs, hshown, Glyph.text]

theorem glyphs_of_shown {o : Overlay} (h : o.weave.shown = some l) :
    o.glyphs = some (o.weave.glyphs l) := by
  rw [glyphs, h]
  rfl

theorem render_of_glyphs {o : Overlay} (h : o.glyphs = some gs) :
    o.render = some (gs.flatMap Glyph.text) := by
  rw [← o.glyphs_text, h]
  rfl

/-- What is rendered has a source map. -/
theorem exists_trace {o : Overlay} (h : o.render = some code) (source : Text) :
    ∃ m, o.sourceMap source = some m ∧ o.trace source = .ok ⟨code, m⟩ := by
  obtain ⟨l, hshown, -⟩ := Option.map_eq_some_iff.mp h
  have hmap : o.sourceMap source = some ⟨source, o.text,
      linksOf o.weave.origin (SourceMap.Position.zero.advance o.weave.lead) l⟩ := by
    rw [sourceMap, Weave.links, hshown]
    rfl
  exact ⟨_, hmap, by rw [trace, h, hmap]⟩

/-- What the edits of an overlay promise about the glyphs of its rendered text. -/
structure Conserves (edits : List Edit) (o : Overlay) (gs : List Glyph) : Prop where
  rendered : o.render = some (gs.flatMap Glyph.text)
  kept : ∀ (p : Text) c q, o.text = p ++ c :: q →
    (∀ r ∈ replacements edits, ¬ r.1.Has p.size) → gs.count (.old p.size c) = 1
  gone : ∀ (p : Text) c q, o.text = p ++ c :: q →
    (∃ r ∈ replacements edits, r.1.Has p.size) → gs.count (.old p.size c) = 0
  replaced : ∀ r ∈ replacements edits, r.2 ≠ [] → gs.count (.new r.1.start r.2) = 1

theorem count_glyphs_old (w : Weave) (l : List Segment) (i : Nat) (c : Char) :
    (w.glyphs l).count (.old i c) = (l.flatMap Segment.glyphs).count (.old i c) := by
  simp [Weave.glyphs, List.count_append]

theorem count_glyphs_new (w : Weave) (l : List Segment) (i : Nat) (content : Text) :
    (w.glyphs l).count (.new i content) = (l.flatMap Segment.glyphs).count (.new i content) := by
  simp [Weave.glyphs, List.count_append]

theorem mem_olds {t : Text} (h : g ∈ olds start t) :
    ∃ (p : Text) (c : Char) (q : Text), t = p ++ c :: q ∧ g = .old (start + p.size) c := by
  induction t generalizing start with
  | nil => cases h
  | cons d t ih =>
    rcases List.mem_cons.mp h with rfl | h
    · exact ⟨[], d, t, rfl, rfl⟩
    · obtain ⟨p, c, q, rfl, rfl⟩ := ih h
      refine ⟨d :: p, c, q, rfl, ?_⟩
      rw [Text.size_cons, Nat.add_assoc]

theorem count_olds (start : Nat) (p q : Text) (c : Char) :
    (olds start (p ++ c :: q)).count (.old (start + p.size) c) = 1 := by
  induction p generalizing start with
  | nil =>
    have hrest : Glyph.old start c ∉ olds (start + c.utf8Size) q := by
      intro h
      obtain ⟨x, d, y, _, he⟩ := mem_olds h
      have hstart := (Glyph.old.inj he).1
      have := c.utf8Size_pos
      omega
    simp [olds, List.count_eq_zero.mpr hrest]
  | cons d p ih =>
    have hne : ¬ Glyph.old start d = .old (start + Text.size (d :: p)) c := by
      intro he
      have hstart := (Glyph.old.inj he).1
      have := d.utf8Size_pos
      rw [Text.size_cons] at hstart
      omega
    rw [List.cons_append, olds, List.count_cons_of_ne hne, Text.size_cons, ← Nat.add_assoc]
    exact ih _

namespace Segment

def span (s : Segment) : Span :=
  ⟨s.start, s.stop⟩

theorem mem_glyphs_old {s : Segment} :
    .old i c ∈ s.glyphs ↔ s.content = none ∧ .old i c ∈ olds s.start s.text := by
  unfold glyphs
  cases s.content with
  | none => simp
  | some content => simp

theorem mem_glyphs_new {s : Segment} {content : Text} :
    .new i content ∈ s.glyphs ↔ s.start = i ∧ s.content = some content := by
  unfold glyphs
  cases s.content with
  | none =>
    have hold : Glyph.new i content ∉ olds s.start s.text := by
      intro h
      obtain ⟨p, c, q, _, he⟩ := mem_olds h
      cases he
    simp [hold]
  | some content => simp [eq_comm]

/-- A character comes out of the segment that it is in. -/
theorem span_has_of_old {s : Segment} (h : .old i c ∈ s.glyphs) : s.span.Has i := by
  obtain ⟨_, hold⟩ := mem_glyphs_old.mp h
  obtain ⟨p, d, q, ht, he⟩ := mem_olds hold
  have hi := (Glyph.old.inj he).1
  have hstop : s.stop = s.start + Text.size s.text := rfl
  have := d.utf8Size_pos
  rw [ht, Text.size_append, Text.size_cons] at hstop
  refine ⟨?_, ?_⟩
  · change s.start ≤ i
    omega
  · change i < s.stop
    omega

theorem count_old {s : Segment} (hs : s.content = none) (ht : s.text = p ++ c :: q)
    (hi : s.start + Text.size p = i) : s.glyphs.count (.old i c) = 1 := by
  unfold glyphs
  rw [hs, ht, ← hi]
  simp [List.count_append, count_olds]

theorem count_new {s : Segment} {content : Text} (hs : s.content = some content) :
    s.glyphs.count (.new s.start content) = 1 := by
  unfold glyphs
  rw [hs]
  simp

end Segment

/-- Each character is in one of the segments. -/
theorem Tiles.exists_character (h : Tiles a segments (p ++ c :: q)) :
    ∃ s ∈ segments, ∃ x y, s.text = x ++ c :: y ∧ s.start + Text.size x = a + Text.size p := by
  induction segments generalizing a p with
  | nil => cases p <;> cases h
  | cons s segments ih =>
    obtain ⟨rfl, _, rest, he, htiles⟩ := h
    by_cases hle : Text.size s.text ≤ Text.size p
    · obtain ⟨m, rfl, rfl⟩ := Text.append_of_size_le he.symm hle
      obtain ⟨r, hr, x, y, ht, hx⟩ := ih htiles
      refine ⟨r, by simp [hr], x, y, ht, ?_⟩
      rw [hx, Segment.stop, Text.size_append, Nat.add_assoc]
    · obtain ⟨m, hm, hrest⟩ := Text.append_of_size_le he (by omega)
      cases m with
      | nil =>
        rw [hm, List.append_nil] at hle
        omega
      | cons d m =>
        obtain ⟨rfl, _⟩ := List.cons.inj hrest
        exact ⟨s, by simp, p, m, hm, rfl⟩

/-- The replaced spans are the segments with a new text. -/
def Replaced (replaced : List (Span × Text)) (l : List Segment) : Prop :=
  ∀ r c, (r, c) ∈ replaced ↔ ∃ s ∈ l, s.span = r ∧ s.content = some c

/-- A segment that is not replaced brings out the character at its start. -/
theorem Tiles.exists_first {t : Text} (h : Tiles a segments t) (hs : s ∈ segments)
    (hnone : s.content = none) :
    ∃ p c q, t = p ++ c :: q ∧ a + Text.size p = s.start ∧ .old s.start c ∈ s.glyphs := by
  obtain ⟨p, q, rfl, hp⟩ := h.exists_split hs
  have hsolid := h.solid s hs
  cases ht : s.text with
  | nil =>
    rw [Segment.stop, ht, Text.size_nil] at hsolid
    omega
  | cons c t =>
    refine ⟨p, c, t ++ q, rfl, hp, Segment.mem_glyphs_old.mpr ⟨hnone, ?_⟩⟩
    rw [ht]
    exact List.mem_cons_self

/-- Two lists of segments bring out the same characters and the same new texts. -/
structure Alike (l m : List Segment) : Prop where
  old : ∀ i c, (l.flatMap Segment.glyphs).count (.old i c) =
    (m.flatMap Segment.glyphs).count (.old i c)
  new : ∀ i content, content ≠ [] → (l.flatMap Segment.glyphs).count (.new i content) =
    (m.flatMap Segment.glyphs).count (.new i content)

theorem Alike.rfl : Alike l l :=
  ⟨fun _ _ => Eq.refl _, fun _ _ _ => Eq.refl _⟩

/-- Segments of which all is removed bring out nothing. -/
theorem Alike.skip (h : ∀ s ∈ run, s.content = some []) :
    Alike (p ++ q) (p ++ (run ++ q)) := by
  have hold : ∀ i c, (run.flatMap Segment.glyphs).count (.old i c) = 0 := by
    intro i c
    apply List.count_eq_zero.mpr
    intro hg
    obtain ⟨s, hs, hsg⟩ := List.mem_flatMap.mp hg
    have := (Segment.mem_glyphs_old.mp hsg).1
    rw [h s hs] at this
    cases this
  have hnew : ∀ i content, content ≠ [] →
      (run.flatMap Segment.glyphs).count (.new i content) = 0 := by
    intro i content hne
    apply List.count_eq_zero.mpr
    intro hg
    obtain ⟨s, hs, hsg⟩ := List.mem_flatMap.mp hg
    have := (Segment.mem_glyphs_new.mp hsg).2
    rw [h s hs] at this
    exact hne (Option.some.inj this).symm
  constructor
  · intro i c
    simp only [List.flatMap_append, List.count_append, hold, Nat.zero_add]
  · intro i content hne
    simp only [List.flatMap_append, List.count_append, hnew i content hne, Nat.zero_add]

namespace Weave.Shows

variable {w : Weave} {t : Text} {l : List Segment}

theorem eq_of_has (h : w.Shows t l) (hs : s ∈ l) (hr : r ∈ l) (hsi : s.span.Has i)
    (hri : r.span.Has i) : s = r :=
  h.tiles.eq_of_meet (h.mem.mp hs) (h.mem.mp hr) (Nat.lt_of_le_of_lt hsi.1 hri.2)
    (Nat.lt_of_le_of_lt hri.1 hsi.2)

/-- A glyph of one segment only comes out as often as from that segment. -/
theorem count_eq (h : w.Shows t l) (hs : s ∈ l) (hg : ∀ r ∈ l, g ∈ r.glyphs → r = s) :
    (l.flatMap Segment.glyphs).count g = s.glyphs.count g := by
  obtain ⟨p, q, rfl⟩ := List.append_of_mem hs
  have hother : ∀ r ∈ p ++ q, g ∉ r.glyphs := by
    intro r hr hgr
    rw [hg r (mem_of_mem_others (m := [s]) hr) hgr] at hr
    exact h.notMem hr
  have hzero : ∀ m : List Segment, m ⊆ p ++ q → (m.flatMap Segment.glyphs).count g = 0 := by
    intro m hm
    apply List.count_eq_zero.mpr
    intro hg
    obtain ⟨r, hr, hgr⟩ := List.mem_flatMap.mp hg
    exact hother r (hm hr) hgr
  rw [List.flatMap_append, List.flatMap_cons, List.count_append, List.count_append,
    hzero p (by simp), hzero q (by simp), Nat.zero_add, Nat.add_zero]

/-- Of segments that are hidden, nothing comes out. -/
theorem count_hidden (h : w.Shows t (p ++ (run ++ q))) (hs : s ∈ run)
    (hg : ∀ r ∈ p ++ (run ++ q), g ∈ r.glyphs → r = s) :
    ((p ++ q).flatMap Segment.glyphs).count g = 0 := by
  apply List.count_eq_zero.mpr
  intro hin
  obtain ⟨r, hr, hrg⟩ := List.mem_flatMap.mp hin
  obtain rfl := hg r (mem_of_mem_others hr) hrg
  have hnodup : (p ++ (run ++ q)).Nodup := .of_map _ h.order.nodup
  simp only [List.nodup_append'] at hnodup
  rcases List.mem_append.mp hr with hr | hr
  · exact hnodup.2.2 hr (List.mem_append_left _ hs)
  · exact hnodup.2.1.2.2 hs hr

/-- A character comes out once, or not at all if there is a new text for its segment. -/
theorem count_old (h : w.Shows t l) (ht : t = p ++ c :: q) : ∃ s ∈ l, s.span.Has (Text.size p) ∧
    (l.flatMap Segment.glyphs).count (.old (Text.size p) c) =
      if s.content = none then 1 else 0 := by
  subst ht
  obtain ⟨s, hs, x, y, htext, hx⟩ := h.tiles.exists_character
  rw [Nat.zero_add] at hx
  have hhas : s.span.Has (Text.size p) := by
    have hstop : s.stop = s.start + Text.size s.text := rfl
    have := c.utf8Size_pos
    rw [htext, Text.size_append, Text.size_cons] at hstop
    refine ⟨?_, ?_⟩
    · change s.start ≤ _
      omega
    · change _ < s.stop
      omega
  refine ⟨s, h.mem.mpr hs, hhas, ?_⟩
  rw [h.count_eq (h.mem.mpr hs) fun r hr hg =>
    h.eq_of_has hr (h.mem.mpr hs) (Segment.span_has_of_old hg) hhas]
  split
  · rename_i hnone
    exact Segment.count_old hnone htext hx
  · rename_i hsome
    exact List.count_eq_zero.mpr fun hg => hsome (Segment.mem_glyphs_old.mp hg).1

theorem count_new {content : Text} (h : w.Shows t l) (hs : s ∈ l)
    (hc : s.content = some content) :
    (l.flatMap Segment.glyphs).count (.new s.start content) = 1 := by
  rw [h.count_eq hs fun r hr hg => h.eq_of_start hr hs (Segment.mem_glyphs_new.mp hg).1]
  exact Segment.count_new hc

/-- Nothing is lost and nothing doubled if the replaced spans are the segments with a new text, and
what is shown brings out what these segments do. -/
theorem conserves {o : Overlay} (h : w.Shows o.text l) (hr : Replaced (replacements edits) l)
    (hshown : o.weave.shown = some m) (halike : Alike m l) :
    Conserves edits o (o.weave.glyphs m) where
  rendered := render_of_glyphs (glyphs_of_shown hshown)
  kept p c q ht hout := by
    obtain ⟨s, hs, hhas, hcount⟩ := h.count_old ht
    rw [count_glyphs_old, halike.old, hcount, if_pos]
    cases hc : s.content with
    | none => rfl
    | some content => exact absurd hhas (hout _ ((hr s.span content).mpr ⟨s, hs, rfl, hc⟩))
  gone p c q ht := by
    rintro ⟨⟨r, content⟩, hin, hrhas⟩
    obtain ⟨s, hs, hhas, hcount⟩ := h.count_old ht
    obtain ⟨u, hu, rfl, hc⟩ := (hr r content).mp hin
    obtain rfl := h.eq_of_has hs hu hhas hrhas
    rw [count_glyphs_old, halike.old, hcount, if_neg (by simp [hc])]
  replaced := by
    rintro ⟨r, content⟩ hin hne
    obtain ⟨s, hs, rfl, hc⟩ := (hr r content).mp hin
    rw [count_glyphs_new, halike.new _ _ hne]
    exact h.count_new hs hc

end Weave.Shows
end GadgetBuild.Overlay
