import GadgetBuild.Proofs.Overlay.Runs
import GadgetBuild.Proofs.Text.Splice

/-!
The glyphs of a text with other glyphs in place of spans of it. Those that show nothing are left out
of an overlay's glyphs, so that they can be compared.
-/

namespace GadgetBuild.Overlay

/-- The glyphs of a text that starts at an offset, with others in place of spans. -/
def spliced (offset : Nat) : List (Span × List Glyph) → Text → List Glyph
  | [], t => olds offset t
  | (s, gs) :: parts, t =>
    olds offset (t.upTo (s.start - offset)) ++ gs ++
      spliced s.stop parts (t.beyond (s.stop - offset))

theorem olds_append (offset : Nat) (t u : Text) :
    olds offset (t ++ u) = olds offset t ++ olds (offset + t.size) u := by
  induction t generalizing offset with
  | nil => rfl
  | cons c t ih => rw [List.cons_append, olds, olds, ih, Text.size_cons, Nat.add_assoc]; rfl

theorem spliced_text (offset : Nat) (parts : List (Span × List Glyph)) (t : Text) :
    (spliced offset parts t).flatMap Glyph.text =
      Text.splice offset (parts.map fun x => (x.1, x.2.flatMap Glyph.text)) t := by
  induction parts generalizing offset t with
  | nil => exact olds_text offset t
  | cons x parts ih =>
    rw [spliced, List.map_cons, Text.splice, List.flatMap_append, List.flatMap_append, olds_text, ih]

theorem spliced_append {p m q : Text} {s : Span} (hstart : s.start = offset + p.size)
    (hstop : s.stop = s.start + m.size) : spliced offset ((s, gs) :: parts) (p ++ (m ++ q)) =
      olds offset p ++ (gs ++ spliced s.stop parts q) := by
  have hp : s.start - offset = p.size := by omega
  have hm : s.stop - offset = (p ++ m).size := by
    rw [Text.size_append]
    omega
  rw [spliced, hp, hm, Text.upTo_size_append, ← List.append_assoc p m q, Text.beyond_size_append,
    List.append_assoc]

variable {parts : List (Span × List Glyph)}

/-- A stretch that no span reaches into stands behind what the text before it becomes. -/
theorem spliced_split {before m after : Text}
    (h : Text.Marks offset (parts.map (·.1)) (before ++ (m ++ after)))
    (hout : ∀ x ∈ parts, x.1.stop ≤ offset + before.size ∨
      offset + (before ++ m).size ≤ x.1.start) :
    ∃ rest, spliced offset parts (before ++ (m ++ after)) =
      spliced offset (parts.filter (·.1.stop ≤ offset + before.size)) before ++
        (olds (offset + before.size) m ++ rest) := by
  induction parts generalizing offset before with
  | nil =>
    refine ⟨olds (offset + before.size + m.size) after, ?_⟩
    rw [List.filter_nil, spliced, spliced, olds_append, olds_append]
  | cons first parts ih =>
    obtain ⟨s, gs⟩ := first
    obtain ⟨p, k, q, he, hk, hstart, hstop, hq⟩ := h
    change s.start = offset + p.size at hstart
    change s.stop = s.start + k.size at hstop
    change Text.Marks s.stop _ _ at hq
    have hsolid := Text.size_pos hk
    by_cases hle : s.stop ≤ offset + before.size
    · have hsize : Text.size (p ++ k) ≤ before.size := by
        rw [Text.size_append]
        omega
      rw [← List.append_assoc p] at he
      obtain ⟨b, rfl, rfl⟩ := Text.append_of_size_le he.symm hsize
      have hpos : offset + Text.size (p ++ k ++ b) = s.stop + b.size := by
        rw [Text.size_append, Text.size_append]
        omega
      have hall : offset + Text.size (p ++ k ++ b ++ m) = s.stop + Text.size (b ++ m) := by
        rw [Text.size_append, ← Nat.add_assoc, hpos, Text.size_append, Nat.add_assoc]
      rw [hpos, hall] at hout
      rw [hpos] at hle ⊢
      obtain ⟨rest, hrest⟩ := ih hq fun x hx => hout x (List.mem_cons_of_mem _ hx)
      rw [List.filter_cons_of_pos (a := (s, gs)) (decide_eq_true hle)]
      refine ⟨rest, ?_⟩
      rw [List.append_assoc, List.append_assoc, spliced_append hstart hstop, List.append_assoc,
        spliced_append hstart hstop, hrest]
      simp only [List.append_assoc]
    · have hbehind := (hout (s, gs) List.mem_cons_self).resolve_left hle
      have hsize : Text.size (before ++ m) ≤ p.size := by
        change offset + Text.size (before ++ m) ≤ s.start at hbehind
        omega
      rw [← List.append_assoc before] at he
      obtain ⟨b, rfl, rfl⟩ := Text.append_of_size_le he hsize
      have hnone := hq.filter_eq_nil gs (Nat.not_le.mp hle)
      refine ⟨olds (offset + Text.size (before ++ m)) b ++ (gs ++ spliced s.stop parts q), ?_⟩
      rw [hnone, ← List.append_assoc before, he, spliced_append hstart hstop, spliced, olds_append,
        olds_append]
      simp only [List.append_assoc]

/-- What stands in place of a span stands behind what the text before it becomes. -/
theorem spliced_at {t : Text} (h : Text.Marks offset (parts.map (·.1)) t) (hx : (s, gs) ∈ parts) :
    ∃ rest, spliced offset parts t =
      spliced offset (parts.filter (·.1.stop ≤ s.start)) (t.upTo (s.start - offset)) ++
        (gs ++ rest) := by
  induction parts generalizing offset t with
  | nil => cases hx
  | cons first parts ih =>
    obtain ⟨r, hs⟩ := first
    obtain ⟨p, k, q, rfl, hk, hstart, hstop, hq⟩ := h
    change r.start = offset + p.size at hstart
    change r.stop = r.start + k.size at hstop
    change Text.Marks r.stop _ _ at hq
    have hsolid := Text.size_pos hk
    rw [spliced_append hstart hstop]
    rcases List.mem_cons.mp hx with hx | hx
    · obtain ⟨rfl, rfl⟩ := Prod.mk.inj hx
      have hbefore : s.start - offset = p.size := by omega
      rw [hq.filter_eq_nil gs (by omega), hbefore, Text.upTo_size_append]
      exact ⟨_, rfl⟩
    · have hle := (hq.bounds s (List.mem_map.mpr ⟨_, hx, rfl⟩)).1
      have hbefore : s.start - offset = Text.size (p ++ k) + (s.start - r.stop) := by
        rw [Text.size_append]
        omega
      obtain ⟨rest, hrest⟩ := ih hq hx
      rw [List.filter_cons_of_pos (a := (r, hs)) (decide_eq_true hle), hbefore,
        ← List.append_assoc p, Text.upTo_append, List.append_assoc p, spliced_append hstart hstop,
        hrest]
      exact ⟨rest, by simp only [List.append_assoc]⟩

/-- The glyphs that show something. -/
def visible (gs : List Glyph) : List Glyph :=
  gs.filter fun g => g.text ≠ []

theorem visible_append (gs hs : List Glyph) : visible (gs ++ hs) = visible gs ++ visible hs :=
  List.filter_append gs hs

theorem visible_text (gs : List Glyph) :
    (visible gs).flatMap Glyph.text = gs.flatMap Glyph.text := by
  induction gs with
  | nil => rfl
  | cons g gs ih =>
    by_cases hg : g.text = []
    · rw [visible, List.filter_cons_of_neg (by simpa using hg), List.flatMap_cons, hg]
      exact ih
    · rw [visible, List.filter_cons_of_pos (by simpa using hg), List.flatMap_cons, List.flatMap_cons]
      exact congrArg _ ih

theorem visible_olds (offset : Nat) (t : Text) : visible (olds offset t) = olds offset t := by
  refine List.filter_eq_self.mpr fun g hg => ?_
  obtain ⟨p, c, q, -, rfl⟩ := mem_olds hg
  rfl

theorem visible_singleton {g : Glyph} (h : g.text ≠ []) : visible [g] = [g] :=
  List.filter_cons_of_pos (decide_eq_true h)

theorem visible_of_none (start : Nat) (t trail : Text) :
    visible (Segment.glyphs ⟨start, t, [], none, trail⟩) =
      olds start t ++ visible [.inserted trail] := by
  rw [Segment.glyphs, visible_append, ← List.singleton_append, visible_append, visible_olds]
  rfl

theorem visible_of_some (start : Nat) (t content trail : Text) :
    visible (Segment.glyphs ⟨start, t, [], some content, trail⟩) =
      visible [.new start content] ++ visible [.inserted trail] := by
  rw [Segment.glyphs, visible_append, ← List.singleton_append, visible_append]
  rfl

theorem visible_kept (start : Nat) (t : Text) :
    visible ((kept start t).flatMap Segment.glyphs) = olds start t := by
  unfold kept
  split
  · rename_i h
    rw [h]
    rfl
  · rw [List.flatMap_singleton, visible_of_none]
    exact List.append_nil _

theorem exists_of_visible {gs p q : List Glyph} (h : visible gs = p ++ g :: q) :
    ∃ before after, gs = before ++ g :: after ∧ visible before = p ∧ visible after = q := by
  obtain ⟨x, y, rfl, hx, hy⟩ := List.filter_eq_append_iff.mp h
  obtain ⟨u, v, rfl, hu, -, hv⟩ := List.filter_eq_cons_iff.mp hy
  refine ⟨x ++ u, v, by simp, ?_, hv⟩
  rw [visible_append]
  have : visible u = [] := List.filter_eq_nil_iff.mpr fun g hg => hu g hg
  rw [this, List.append_nil]
  exact hx

end GadgetBuild.Overlay
