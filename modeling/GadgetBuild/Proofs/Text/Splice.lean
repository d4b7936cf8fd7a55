import Mathlib.Data.List.Basic
import GadgetBuild.Lines
import GadgetBuild.Overlay.Edit
import GadgetBuild.Proofs.Text.Offsets

/-!
Texts in place of parts of a text. The parts are given as spans, which follow each other.
-/

namespace GadgetBuild.Text

/-- A text that starts at an offset, with new texts in place of spans. -/
def splice (offset : Nat) : List (Span × Text) → Text → Text
  | [], t => t
  | (s, new) :: parts, t =>
    upTo (s.start - offset) t ++ new ++ splice s.stop parts (beyond (s.stop - offset) t)

/-- The spans are parts of a text that starts at an offset, one behind the other and none empty. -/
def Marks : Nat → List Span → Text → Prop
  | _, [], _ => True
  | offset, s :: spans, t =>
    ∃ p m q, t = p ++ (m ++ q) ∧ m ≠ [] ∧ s.start = offset + size p ∧ s.stop = s.start + size m ∧
      Marks s.stop spans q

/-- Text is left before the spans, between them and behind them. -/
def Inner : Nat → List Span → Text → Prop
  | _, [], t => t ≠ []
  | offset, s :: spans, t =>
    ∃ p m q, t = p ++ (m ++ q) ∧ p ≠ [] ∧ m ≠ [] ∧ s.start = offset + size p ∧
      s.stop = s.start + size m ∧ Inner s.stop spans q

/-- The spans of parts that are told by their spans. -/
theorem map_fst_parts (spans : List Span) (f : Span → α) :
    (spans.map fun r => (r, f r)).map (·.1) = spans := by
  rw [List.map_map]
  exact List.map_id' spans

theorem splice_append {p m q : Text} (hstart : s.start = offset + size p)
    (hstop : s.stop = s.start + size m) :
    splice offset ((s, new) :: parts) (p ++ (m ++ q)) = p ++ (new ++ splice s.stop parts q) := by
  have hp : s.start - offset = size p := by omega
  have hm : s.stop - offset = size (p ++ m) := by
    rw [size_append]
    omega
  rw [splice, hp, hm, upTo_size_append, ← List.append_assoc p m q, beyond_size_append,
    List.append_assoc]

theorem Inner.ne_nil {t : Text} (h : Inner offset spans t) : t ≠ [] := by
  cases spans with
  | nil => exact h
  | cons s spans =>
    obtain ⟨p, m, q, rfl, hp, _⟩ := h
    simp [hp]

theorem Inner.marks {t : Text} (h : Inner offset spans t) : Marks offset spans t := by
  induction spans generalizing offset t with
  | nil => trivial
  | cons s spans ih =>
    obtain ⟨p, m, q, rfl, _, hm, hstart, hstop, hq⟩ := h
    exact ⟨p, m, q, rfl, hm, hstart, hstop, ih hq⟩

theorem Marks.bounds {t : Text} (h : Marks offset spans t) :
    ∀ s ∈ spans, offset ≤ s.start ∧ s.start < s.stop ∧ s.stop ≤ offset + size t := by
  induction spans generalizing offset t with
  | nil => simp
  | cons s spans ih =>
    obtain ⟨p, m, q, rfl, hm, hstart, hstop, hq⟩ := h
    have := size_pos hm
    intro r hr
    rw [size_append, size_append]
    rcases List.mem_cons.mp hr with rfl | hr
    · omega
    · have := ih hq r hr
      omega

theorem Marks.ordered {t : Text} (h : Marks offset spans t) :
    spans.Pairwise fun s r => s.stop ≤ r.start := by
  induction spans generalizing offset t with
  | nil => exact .nil
  | cons s spans ih =>
    obtain ⟨p, m, q, rfl, -, -, -, hq⟩ := h
    exact List.pairwise_cons.mpr ⟨fun r hr => (hq.bounds r hr).1, ih hq⟩

/-- Spans that mark the rest of a text mark the text. -/
theorem Marks.append_left {p t : Text} (h : Marks (offset + size p) spans t) :
    Marks offset spans (p ++ t) := by
  cases spans with
  | nil => trivial
  | cons s spans =>
    obtain ⟨x, m, q, rfl, hm, hstart, hstop, hq⟩ := h
    refine ⟨p ++ x, m, q, by simp, hm, ?_, hstop, hq⟩
    rw [size_append]
    omega

theorem Marks.exists_part {t : Text} (h : Marks offset spans t) (hs : s ∈ spans) :
    ∃ p m q, t = p ++ (m ++ q) ∧ s.start = offset + size p ∧ s.stop = s.start + size m := by
  induction spans generalizing offset t with
  | nil => cases hs
  | cons r spans ih =>
    obtain ⟨p, m, q, rfl, _, hstart, hstop, hq⟩ := h
    rcases List.mem_cons.mp hs with rfl | hs
    · exact ⟨p, m, q, rfl, hstart, hstop⟩
    · obtain ⟨p', m', q', rfl, hstart', hstop'⟩ := ih hq hs
      refine ⟨p ++ (m ++ p'), m', q', by simp, ?_, hstop'⟩
      rw [size_append, size_append]
      omega

theorem Inner.append_left {p t : Text} (h : Inner (offset + size p) spans t) :
    Inner offset spans (p ++ t) := by
  cases spans with
  | nil =>
    intro he
    exact h (List.append_eq_nil_iff.mp he).2
  | cons s spans =>
    obtain ⟨x, m, q, rfl, hx, hm, hstart, hstop, hq⟩ := h
    refine ⟨p ++ x, m, q, by simp, ?_, hm, ?_, hstop, hq⟩
    · intro he
      exact hx (List.append_eq_nil_iff.mp he).2
    · rw [size_append]
      omega

/-- What stands before the spans stays before them. -/
theorem splice_append_left {p t : Text} {parts : List (Span × Text)}
    (h : Marks (offset + size p) (parts.map (·.1)) t) :
    splice offset parts (p ++ t) = p ++ splice (offset + size p) parts t := by
  cases parts with
  | nil => rfl
  | cons first parts =>
    obtain ⟨s, new⟩ := first
    obtain ⟨u, m, q, rfl, -, hstart, hstop, -⟩ := h
    change s.start = offset + size p + size u at hstart
    have hstart' : s.start = offset + size (p ++ u) := by
      rw [size_append, hstart, Nat.add_assoc]
    rw [splice_append hstart hstop, ← List.append_assoc p, splice_append hstart' hstop,
      List.append_assoc]

/-- With text behind the spans the last character stays the last. The others are of the text, or of
what stands in place of a span. -/
theorem Inner.exists_splice_concat {t : Text} {parts : List (Span × Text)}
    (h : Inner offset (parts.map (·.1)) (t ++ [c])) :
    ∃ w, splice offset parts (t ++ [c]) = w ++ [c] ∧
      ∀ d ∈ w, d ∈ t ∨ ∃ x ∈ parts, d ∈ x.2 := by
  induction parts generalizing offset t with
  | nil => exact ⟨t, rfl, fun d hd => Or.inl hd⟩
  | cons first parts ih =>
    obtain ⟨s, new⟩ := first
    obtain ⟨p, m, q, he, -, -, hstart, hstop, hq⟩ := h
    obtain ⟨q, d, rfl⟩ := (List.eq_nil_or_concat' q).resolve_left hq.ne_nil
    rw [← List.append_assoc, ← List.append_assoc] at he
    obtain ⟨rfl, hd⟩ := List.append_inj' he rfl
    obtain ⟨rfl, -⟩ := List.cons.inj hd
    obtain ⟨w, hw, hmem⟩ := ih hq
    refine ⟨p ++ (new ++ w), ?_, ?_⟩
    · rw [List.append_assoc, List.append_assoc, splice_append hstart hstop, hw]
      simp only [List.append_assoc]
    · intro e he
      rw [List.mem_append, List.mem_append] at he
      rcases he with he | he | he
      · exact Or.inl (by simp [he])
      · exact Or.inr ⟨(s, new), List.mem_cons_self, he⟩
      · rcases hmem e he with he | ⟨x, hx, he⟩
        · exact Or.inl (by simp [he])
        · exact Or.inr ⟨x, List.mem_cons_of_mem _ hx, he⟩

/-- A part of a text that starts at an offset. -/
def part (offset : Nat) (s : Span) (t : Text) : Text :=
  slice (s.start - offset) (s.stop - offset) t

theorem part_append {p m q : Text} (hstart : s.start = offset + size p)
    (hstop : s.stop = s.start + size m) : part offset s (p ++ (m ++ q)) = m := by
  have hp : s.start - offset = size p := by omega
  have hm : s.stop - offset = size p + size m := by omega
  rw [part, hp, hm, ← List.append_assoc, slice_size_append]

theorem part_beyond {p t : Text} (h : offset + size p ≤ s.start) :
    part offset s (p ++ t) = part (offset + size p) s t := by
  rw [part, slice_append (by omega), part, Nat.sub_add_eq, Nat.sub_add_eq]

theorem Marks.part_prefix {t : Text} (h : Marks offset spans t) (hs : s ∈ spans) (q : Text) :
    part offset s (t ++ q) = part offset s t := by
  obtain ⟨u, m, v, rfl, hstart, hstop⟩ := h.exists_part hs
  rw [List.append_assoc, List.append_assoc, part_append hstart hstop, part_append hstart hstop]

/-- Where the first span ends behind a position, none ends before it. -/
theorem Marks.filter_eq_nil {t : Text} {parts : List (Span × α)}
    (h : Marks s.stop (parts.map (·.1)) t) (new : α) (hlt : i < s.stop) :
    ((s, new) :: parts).filter (·.1.stop ≤ i) = [] := by
  apply List.filter_eq_nil_iff.mpr
  intro part hp
  rw [decide_eq_true_eq]
  rcases List.mem_cons.mp hp with rfl | hp
  · exact Nat.not_le.mpr hlt
  · have := h.bounds part.1 (List.mem_map.mpr ⟨part, hp, rfl⟩)
    omega

/-- A character outside of the spans stands behind what the text before it becomes. -/
theorem splice_split {before : Text} {parts : List (Span × Text)}
    (h : Marks offset (parts.map (·.1)) (before ++ c :: after))
    (hout : ∀ part ∈ parts,
      ¬ (part.1.start ≤ offset + size before ∧ offset + size before < part.1.stop)) :
    Marks offset ((parts.filter (·.1.stop ≤ offset + size before)).map (·.1)) before ∧
      ∃ rest, splice offset parts (before ++ c :: after) =
        splice offset (parts.filter (·.1.stop ≤ offset + size before)) before ++ c :: rest := by
  induction parts generalizing offset before with
  | nil => exact ⟨trivial, after, rfl⟩
  | cons first parts ih =>
    obtain ⟨s, new⟩ := first
    obtain ⟨p, m, q, he, hm, hstart, hstop, hq⟩ := h
    change s.start = offset + size p at hstart
    change s.stop = s.start + size m at hstop
    change Marks s.stop _ _ at hq
    by_cases hle : s.stop ≤ offset + size before
    · have hsize : size (p ++ m) ≤ size before := by
        rw [size_append]
        omega
      rw [← List.append_assoc] at he
      obtain ⟨b, rfl, rfl⟩ := append_of_size_le he.symm hsize
      have hpos : offset + size (p ++ m ++ b) = s.stop + size b := by
        rw [size_append, size_append]
        omega
      rw [hpos] at hout hle ⊢
      obtain ⟨hmarks, rest, hrest⟩ := ih hq fun part hp => hout part (by simp [hp])
      rw [List.filter_cons_of_pos (a := (s, new)) (decide_eq_true hle)]
      refine ⟨⟨p, m, b, by simp, hm, hstart, hstop, hmarks⟩, rest, ?_⟩
      rw [List.append_assoc, List.append_assoc, splice_append hstart hstop, List.append_assoc,
        splice_append hstart hstop, hrest]
      simp only [List.append_assoc]
    · have hlt := hout (s, new) (by simp)
      have hsize : size before ≤ size p := by
        simp only at hlt
        omega
      obtain ⟨x, rfl, hx⟩ := append_of_size_le he hsize
      have hnone := hq.filter_eq_nil new (Nat.not_le.mp hle)
      cases x with
      | nil =>
        simp only [List.append_nil] at hstart hlt
        omega
      | cons d x =>
        obtain ⟨rfl, rfl⟩ := List.cons.inj hx
        rw [hnone]
        refine ⟨trivial, x ++ (new ++ splice s.stop parts q), ?_⟩
        rw [he, splice_append hstart hstop]
        simp [splice]

/-- New texts with at most the line feeds of the parts they replace: none is lost exactly if each of
them has as many. -/
theorem lineFeeds_splice {t : Text} {parts : List (Span × Text)}
    (h : Marks offset (parts.map (·.1)) t)
    (hle : ∀ x ∈ parts, lineFeeds x.2 ≤ lineFeeds (part offset x.1 t)) :
    lineFeeds (splice offset parts t) ≤ lineFeeds t ∧
      (lineFeeds (splice offset parts t) = lineFeeds t ↔
        ∀ x ∈ parts, lineFeeds x.2 = lineFeeds (part offset x.1 t)) := by
  induction parts generalizing offset t with
  | nil => simp [splice]
  | cons first parts ih =>
    obtain ⟨s, new⟩ := first
    obtain ⟨p, m, q, rfl, hm, hstart, hstop, hq⟩ := h
    change s.start = offset + size p at hstart
    change s.stop = s.start + size m at hstop
    change Marks s.stop _ _ at hq
    have hmove : ∀ x ∈ parts, part offset x.1 (p ++ (m ++ q)) = part s.stop x.1 q := by
      intro x hx
      have hb := hq.bounds x.1 (List.mem_map.mpr ⟨x, hx, rfl⟩)
      have hsize : offset + size (p ++ m) = s.stop := by
        rw [size_append]
        omega
      rw [← List.append_assoc, part_beyond (by omega), hsize]
    obtain ⟨hrest, hiff⟩ := ih hq fun x hx => hmove x hx ▸ hle x (by simp [hx])
    have hnew := hle (s, new) (by simp)
    rw [part_append hstart hstop] at hnew
    rw [splice_append hstart hstop, List.forall_mem_cons, part_append hstart hstop]
    simp only [lineFeeds, List.count_append] at hnew hrest hiff ⊢
    have hboth : List.count '\n' p + (List.count '\n' new +
        List.count '\n' (splice s.stop parts q)) =
        List.count '\n' p + (List.count '\n' m + List.count '\n' q) ↔
        List.count '\n' new = List.count '\n' m ∧
          List.count '\n' (splice s.stop parts q) = List.count '\n' q := by
      omega
    refine ⟨by omega, ?_⟩
    rw [hboth, hiff]
    refine and_congr_right fun _ => forall₂_congr fun x hx => ?_
    rw [hmove x hx]

end GadgetBuild.Text
