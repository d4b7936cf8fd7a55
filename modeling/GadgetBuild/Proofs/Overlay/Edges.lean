import Mathlib.Data.List.Flatten
import GadgetBuild.Proofs.Overlay.Attachments

/-!
What an update leaves of the texts attached around it. The rendered text falls in portions, each
attached to an offset or shown for a part of the text. An update takes out portions strictly inside
its span only, also when the span was cut before or the links of the weave go astray.
-/

namespace GadgetBuild.Overlay

inductive Portion where
  /-- What is attached to a side of an offset. -/
  | attached (side : Side) (offset : Nat) (content : Text)
  /-- What is shown for the text from an offset on. -/
  | body (start : Nat) (content : Text)
  deriving DecidableEq, Repr

def Portion.text : Portion → Text
  | .attached _ _ content | .body _ content => content

def Segment.portions (s : Segment) : List Portion :=
  [.attached .right s.start s.lead, .body s.start s.body, .attached .left s.stop s.trail]

/-- The portions of a weave that shows these segments. -/
def Weave.portions (w : Weave) (l : List Segment) : List Portion :=
  .attached .left 0 w.lead :: l.flatMap Segment.portions ++ [.attached .right w.size w.trail]

def portions (o : Overlay) : Option (List Portion) :=
  o.weave.shown.map o.weave.portions

variable {text : Text} {moved : List (Span × Nat)} {w : Weave} {l : List Segment}

/-- The portions of an overlay make its rendered text. -/
theorem render_of_portions {o : Overlay} (h : o.portions = some ps) :
    o.render = some (ps.flatMap Portion.text) := by
  obtain ⟨l, hshown, rfl⟩ := Option.map_eq_some_iff.mp h
  have hsegments : (l.flatMap Segment.portions).flatMap Portion.text =
      l.flatMap Segment.render := by
    rw [List.flatMap_assoc]
    exact List.flatMap_congr fun s _ => by simp [Segment.portions, Segment.render, Portion.text]
  rw [Overlay.render, Weave.render, hshown, Option.map_some]
  simp [Weave.portions, hsegments, Portion.text]

/-- Where the attached texts stand. -/
theorem Weave.mem_portions : .attached side k t ∈ w.portions l ↔
    side = .left ∧ k = 0 ∧ t = w.lead ∨ side = .right ∧ k = w.size ∧ t = w.trail ∨
      ∃ r ∈ l, side = .right ∧ k = r.start ∧ t = r.lead ∨
        side = .left ∧ k = r.stop ∧ t = r.trail := by
  simp only [portions, Segment.portions, List.cons_append, List.mem_cons, List.mem_append,
    List.mem_flatMap, Portion.attached.injEq, reduceCtorEq, List.not_mem_nil, or_false, false_or]
  exact or_congr_right or_comm

/-- What holds of all that is attached in a weave holds of what is shown of it. -/
theorem Bears.of_mem_portions (h : Bears P text.size w) (ht : Tiles 0 w.segments text)
    (hl : l ⊆ w.segments) (hp : .attached side k t ∈ w.portions l) : P side k t := by
  have hsize : w.size = text.size := by rw [Weave.size, ht.text_eq]
  rcases Weave.mem_portions.mp hp with ⟨rfl, rfl, rfl⟩ | ⟨rfl, rfl, rfl⟩ |
      ⟨r, hr, ⟨rfl, rfl, rfl⟩ | ⟨rfl, rfl, rfl⟩⟩
  · exact h.lead
  · exact hsize ▸ h.trail
  · exact (h.around r (hl hr)).1
  · exact (h.around r (hl hr)).2

theorem Weave.portions_infix (h : r ∈ l) : r.portions <:+: w.portions l := by
  obtain ⟨p, q, rfl⟩ := List.append_of_mem h
  refine ⟨.attached .left 0 w.lead :: p.flatMap Segment.portions,
    q.flatMap Segment.portions ++ [.attached .right w.size w.trail], ?_⟩
  simp [portions]

theorem Weave.portions_sublist (h : List.Sublist fewer l) :
    (fewer.flatMap Segment.portions).Sublist (w.portions l) :=
  ((h.flatMap Segment.portions).cons _).trans (List.sublist_append_left _ _)

/-- The ends of a segment are the ends of its parts. -/
theorem Tiles.exists_parts (ht : Tiles 0 w.segments text) (hi : Text.isBoundary i text = true)
    (hr : r ∈ w.segments) : (∃ u ∈ r.cut i, u.start = r.start ∧ u.lead = r.lead) ∧
      ∃ v ∈ r.cut i, v.stop = r.stop ∧ v.trail = r.trail := by
  cases hc : r.straddles i with
  | false =>
    rw [Segment.cut_of_not_straddles hc]
    exact ⟨⟨r, by simp⟩, r, by simp⟩
  | true =>
    obtain ⟨x, y, hxy, hx, hy, he⟩ := Segment.exists_parts ht hr (by simpa using hi) hc
    rw [Segment.cut_eq hxy hx hy he]
    refine ⟨⟨_, List.mem_cons_self, rfl, rfl⟩, ⟨i, y, [], r.content.map fun _ => [], r.trail⟩,
      by simp, ?_, rfl⟩
    change i + Text.size y = r.stop
    rw [Segment.stop, hxy, Text.size_append, ← he, Nat.add_assoc]

/-- A cut takes nothing attached away. -/
theorem Tiles.portions_split (ht : Tiles 0 w.segments text) (hi : Text.isBoundary i text = true)
    (hl : l ⊆ w.segments) (hp : .attached side k t ∈ w.portions l) :
    .attached side k t ∈ (w.split i).portions (l.flatMap (Segment.cut i)) := by
  have hsize : (w.split i).size = w.size := by
    rw [Weave.size, Weave.size, (ht.split hi).text_eq, ht.text_eq]
  rw [Weave.mem_portions] at hp ⊢
  rw [Weave.split_lead, Weave.split_trail, hsize]
  refine hp.imp_right (Or.imp_right ?_)
  rintro ⟨r, hr, hside⟩
  obtain ⟨⟨u, hu, hustart, hulead⟩, v, hv, hvstop, hvtrail⟩ := ht.exists_parts hi (hl hr)
  rcases hside with ⟨rfl, rfl, rfl⟩ | ⟨rfl, rfl, rfl⟩
  · exact ⟨u, List.mem_flatMap.mpr ⟨r, hr, hu⟩, Or.inl ⟨rfl, hustart.symm, hulead.symm⟩⟩
  · exact ⟨v, List.mem_flatMap.mpr ⟨r, hr, hv⟩, Or.inr ⟨rfl, hvstop.symm, hvtrail.symm⟩⟩

/-- What changes segments in place changes what is shown in place, whatever the links are. -/
theorem Weave.shown_map (hg : ∀ s, (g s).start = s.start) :
    Weave.shown { w with segments := w.segments.map g } = w.shown.map (List.map g) := by
  have hfind : ∀ k, (w.segments.map g).find? (·.start = k) =
      (w.segments.find? (·.start = k)).map g := by
    intro k
    rw [List.find?_map]
    simp only [Function.comp_def, hg]
  simp only [shown, List.length_map, hfind]
  cases w.chain.walk none w.segments.length (some w.chain.first) with
  | none => rfl
  | some starts => simp [List.map_filterMap]

/-- A weave cut at both ends of a span in which no move tears it, with the first segment of the span
and the last. -/
structure Spanned (text : Text) (moved : List (Span × Nat)) (s : Span) (w : Weave)
    (a b : Segment) : Prop where
  tiles : Tiles 0 w.segments text
  threaded : Threaded moved w
  seamless : ∀ k, s.Encloses k → ¬ Seam moved k
  first : a ∈ w.segments ∧ a.start = s.start
  last : b ∈ w.segments ∧ b.stop = s.stop
  inside : b.start = s.start ∨ s.Encloses b.start

/-- What an update leaves of a segment: the first of its span shows the new text, and those wiped
show nothing. -/
def overwrite (s : Span) (wiped : List Nat) (content : Text) (r : Segment) : Segment :=
  if r.start ∈ wiped then r.wipe
  else if r.start = s.start then { r with content := some content } else r

section Overwrite

variable {s : Span} {wiped : List Nat} {content : Text} {r : Segment}

@[simp] theorem overwrite_start : (overwrite s wiped content r).start = r.start := by
  unfold overwrite
  split_ifs <;> rfl

@[simp] theorem overwrite_text : (overwrite s wiped content r).text = r.text := by
  unfold overwrite
  split_ifs <;> rfl

@[simp] theorem overwrite_stop : (overwrite s wiped content r).stop = r.stop := by
  simp [Segment.stop]

theorem overwrite_ends (h : r.start ∉ wiped) : (overwrite s wiped content r).lead = r.lead ∧
    (overwrite s wiped content r).trail = r.trail := by
  rw [overwrite, if_neg h]
  split_ifs <;> exact ⟨rfl, rfl⟩

theorem overwrite_first (h : r.start ∉ wiped) (hr : r.start = s.start) :
    overwrite s wiped content r = { r with content := some content } := by
  rw [overwrite, if_neg h, if_pos hr]

theorem overwrite_other (h : r.start ∉ wiped) (hr : r.start ≠ s.start) :
    overwrite s wiped content r = r := by
  rw [overwrite, if_neg h, if_neg hr]

/-- The first segment is changed, and then others are wiped. -/
theorem overwrite_eq (hwiped : ∀ k ∈ wiped, s.start < k) : overwrite s wiped content = fun r =>
    (fun r => if r.start ∈ wiped then r.wipe else r)
      (if r.start = s.start then { r with content := some content } else r) := by
  funext r
  rw [overwrite]
  by_cases hr : r.start = s.start
  · have hout : r.start ∉ wiped := fun hin => absurd (hwiped _ hin) (by omega)
    simp only [if_pos hr, if_neg hout]
  · simp only [if_neg hr]

end Overwrite

namespace Spanned

variable {s : Span} {a b : Segment} {wiped : List Nat} {content : Text}

/-- An update wipes segments that are behind the first of its span and before the last. -/
theorem exists_wiped (h : Spanned text moved s ((w.split s.start).split s.stop) a b)
    (hw : w.update s content = some w') : ∃ wiped, (∀ k ∈ wiped, s.start < k ∧ k < b.start) ∧
      w' = { (w.split s.start).split s.stop with
        segments :=
          ((w.split s.start).split s.stop).segments.map (overwrite s wiped content) } := by
  obtain ⟨k, inner, hend, hinner, rfl⟩ := Weave.replace_eq_some_iff.mp hw
  rw [Weave.endingAt?, h.tiles.find_stop h.last.1 h.last.2, Option.map_some] at hend
  obtain rfl := Option.some.inj hend
  have hinside : ∀ k ∈ inner, s.start < k ∧ k < b.start := by
    rcases hinner with ⟨-, rfl⟩ | ⟨hne, hinner⟩
    · simp
    · exact fun k hk => h.threaded.mem_between h.tiles h.seamless
        (Weave.mem_starts.mpr ⟨a, h.first⟩) (h.inside.resolve_left hne) hinner hk
  refine ⟨inner, hinside, ?_⟩
  rw [overwrite_eq fun k hk => (hinside k hk).1]
  simp [Weave.modify, Function.comp_def]

/-- Nothing at the ends of the span or outside of it is attached to a segment that is wiped. -/
theorem notMem_wiped (h : Spanned text moved s w a b)
    (hwiped : ∀ k ∈ wiped, s.start < k ∧ k < b.start) (hr : r ∈ w.segments)
    (hk : k = r.start ∨ k = r.stop) (hout : ¬ s.Encloses k) : r.start ∉ wiped := by
  intro hin
  have hwipe := hwiped _ hin
  have hbsolid := h.tiles.solid b h.last.1
  have hrsolid := h.tiles.solid r hr
  have hle : r.stop ≤ b.start := by
    by_contra hlt
    obtain rfl := h.tiles.eq_of_meet hr h.last.1 (by omega) (by omega)
    omega
  have hstop := h.last.2
  exact hout ⟨by omega, by omega⟩

theorem portions_kept (h : Spanned text moved s w a b)
    (hwiped : ∀ k ∈ wiped, s.start < k ∧ k < b.start) (hl : l ⊆ w.segments)
    (hp : .attached side k t ∈ w.portions l) (hout : ¬ s.Encloses k) : .attached side k t ∈
      Weave.portions { w with segments := w.segments.map (overwrite s wiped content) }
        (l.map (overwrite s wiped content)) := by
  have hsize : Weave.size { w with segments := w.segments.map (overwrite s wiped content) } =
      w.size := by
    simp [Weave.size, List.flatMap_map]
  rw [Weave.mem_portions] at hp ⊢
  rw [hsize]
  refine hp.imp_right (Or.imp_right ?_)
  rintro ⟨r, hr, hside⟩
  refine ⟨_, List.mem_map_of_mem hr, ?_⟩
  have hkept : r.start ∉ wiped := h.notMem_wiped hwiped (hl hr)
    (hside.imp (fun hs => hs.2.1) fun hs => hs.2.1) hout
  rw [overwrite_start, overwrite_stop, (overwrite_ends hkept).1, (overwrite_ends hkept).2]
  exact hside

theorem portions_before (h : Spanned text moved s w a b)
    (hwiped : ∀ k ∈ wiped, s.start < k ∧ k < b.start) (hl : l ⊆ w.segments)
    (hp : .attached .right s.start t ∈ w.portions l) :
    [.attached .right s.start t, .body s.start content] <:+:
      Weave.portions { w with segments := w.segments.map (overwrite s wiped content) }
        (l.map (overwrite s wiped content)) := by
  have hsolid := h.tiles.solid a h.first.1
  have hbounds := h.tiles.bounds a h.first.1
  have hsize : w.size = text.size := by rw [Weave.size, h.tiles.text_eq]
  have hstart := h.first.2
  rcases Weave.mem_portions.mp hp with ⟨hside, -⟩ | ⟨-, he, -⟩ | ⟨r, hr, ⟨-, he, rfl⟩ | ⟨hside, -⟩⟩
  · cases hside
  · omega
  · have hkept := h.notMem_wiped hwiped (hl hr) (Or.inl he) fun henc => Nat.lt_irrefl _ henc.1
    have hshown := List.mem_map_of_mem (f := overwrite s wiped content) hr
    rw [overwrite_first hkept he.symm] at hshown
    refine .trans ?_ (Weave.portions_infix hshown)
    rw [he]
    exact ⟨[], [.attached .left r.stop r.trail], rfl⟩
  · cases hside

theorem portions_behind (h : Spanned text moved s w a b)
    (hwiped : ∀ k ∈ wiped, s.start < k ∧ k < b.start) (hshown : w.shown = some l)
    (hp : .attached .left s.stop t ∈ w.portions l) :
    [.body s.start content, .attached .left s.stop t].Sublist
      (Weave.portions { w with segments := w.segments.map (overwrite s wiped content) }
        (l.map (overwrite s wiped content))) := by
  have hsolid := h.tiles.solid b h.last.1
  have hstop := h.last.2
  rcases Weave.mem_portions.mp hp with ⟨-, he, -⟩ | ⟨hside, -⟩ | ⟨r, hr, ⟨hside, -⟩ | ⟨-, he, rfl⟩⟩
  · omega
  · cases hside
  · cases hside
  · have hmem := Weave.shown_subset hshown hr
    obtain rfl := h.tiles.eq_of_stop hmem h.last.1 (he.symm.trans hstop.symm)
    have hkept := h.notMem_wiped hwiped hmem (Or.inr he) fun henc => Nat.lt_irrefl _ henc.2
    rcases h.inside with hfirst | hinside
    · have hin := List.mem_map_of_mem (f := overwrite s wiped content) hr
      rw [overwrite_first hkept hfirst] at hin
      refine .trans ?_ (Weave.portions_infix hin).sublist
      rw [← hfirst, he]
      exact .cons _ (.refl _)
    · -- The first segment and the last are two, and shown in this order.
      have hboth := (h.threaded.shown_behind h.tiles h.seamless hshown h.first.1 h.first.2 hr
        hinside).map (overwrite s wiped content)
      have hakept := h.notMem_wiped hwiped h.first.1 (Or.inl h.first.2.symm)
        fun henc => Nat.lt_irrefl _ henc.1
      have hne := Nat.ne_of_gt hinside.1
      rw [List.map_cons, List.map_singleton, overwrite_first hakept h.first.2,
        overwrite_other hkept hne] at hboth
      refine .trans ?_ (Weave.portions_sublist hboth)
      rw [he, ← h.first.2]
      have hfirst : [Portion.body a.start content].Sublist
          (Segment.portions { a with content := some content }) := by
        simp [Segment.portions, Segment.body]
      have hlast : [Portion.attached .left r.stop r.trail].Sublist r.portions := by
        simp [Segment.portions]
      simpa using hfirst.append hlast

end Spanned

section Update

variable {o o' : Overlay} {s : Span} {content : Text}

/-- No move tears a span that may be updated, unless one leads into it. -/
theorem Accepted.seamless (run : Accepted text edits o)
    (allowed : o.history.Allows text (.update s content))
    (hclear : ∀ m ∈ moves edits, ¬ s.Encloses m.2) :
    ∀ k, s.Encloses k → ¬ Seam (moves edits) k := by
  rintro k ⟨hlo, hhi⟩ ⟨m, hm, hk⟩
  have hmoved := run.mem_moved.mpr ⟨m.2, hm⟩
  have hsolid := run.apart.moved.solid m.1 hmoved
  have hcovers : m.1.start < s.stop ∧ s.start < m.1.stop →
      m.1.start ≤ s.start ∧ s.stop ≤ m.1.stop := allowed.2.2.2 m.1 hmoved
  rcases hk with rfl | rfl | rfl
  · have := hcovers ⟨hhi, by omega⟩
    omega
  · have := hcovers ⟨by omega, hlo⟩
    omega
  · exact hclear m hm ⟨hlo, hhi⟩

/-- The cuts that an update makes. -/
theorem Accepted.spanned (run : Accepted text edits o) (htext : text ≠ [])
    (allowed : o.history.Allows text (.update s content))
    (hclear : ∀ m ∈ moves edits, ¬ s.Encloses m.2) :
    ∃ a b, Spanned text (moves edits) s ((o.weave.split s.start).split s.stop) a b := by
  have hin := allowed.1
  have hlt := Nat.lt_of_le_of_ne hin.1 allowed.2.1
  have hsize := Text.isBoundary_le hin.2.2
  have ht := (run.tiles htext).split_span hin
  obtain ⟨hstart, hstop⟩ := (run.tiles htext).cutAt_span hin
  have hthreaded := (run.threaded htext).split_span (run.tiles htext) hin
  obtain ⟨a, ha, has⟩ := ht.exists_start hstart (Nat.zero_le _) (by omega)
  obtain ⟨b, hb, hbs⟩ := ht.exists_stop hstop (by omega) (by omega)
  refine ⟨a, b, ht, hthreaded, run.seamless allowed hclear, ⟨ha, has⟩, ⟨hb, hbs⟩, ?_⟩
  have hsolid := ht.solid b hb
  have hbstart := Segment.not_straddles_iff.mp (hstart b hb)
  rcases Nat.eq_or_lt_of_le (show s.start ≤ b.start by omega) with he | hlt
  · exact Or.inl he.symm
  · exact Or.inr ⟨hlt, by omega⟩

/-- What an update of a span leaves of the attached texts: all that stand at its ends or outside,
and those at its ends on their sides of the new text. -/
structure KeepsEdges (edits : List Edit) (s : Span) (content : Text) (o o' : Overlay)
    (ps ps' : List Portion) : Prop where
  rendered : o.render = some (ps.flatMap Portion.text) ∧
    o'.render = some (ps'.flatMap Portion.text)
  standing : ∀ side k t, .attached side k t ∈ ps → Standing edits side k t
  kept : ∀ side k t, .attached side k t ∈ ps → ¬ s.Encloses k → .attached side k t ∈ ps'
  before : ∀ t, .attached .right s.start t ∈ ps →
    [.attached .right s.start t, .body s.start content] <:+: ps'
  behind : ∀ t, .attached .left s.stop t ∈ ps →
    [.body s.start content, .attached .left s.stop t].Sublist ps'

/-- An accepted update of an overlay that is rendered leaves it rendered, and keeps what is attached
at both ends of its span, unless a move leads into the span. -/
theorem update_keeps_edges (happlied : (ofText text).applyAll edits = .ok o)
    (hrendered : o.portions = some ps) (hupdate : o.apply (.update s content) = .ok o')
    (hclear : ∀ m ∈ moves edits, ¬ s.Encloses m.2) :
    ∃ ps', o'.portions = some ps' ∧ KeepsEdges edits s content o o' ps ps' := by
  have run := accepted_of_applyAll happlied
  obtain ⟨hcheck, w, hw, rfl⟩ := apply_eq_ok_iff.mp hupdate
  rw [run.text_eq] at hcheck
  have allowed := run.apart.check_eq_ok_iff.mp hcheck
  have hlt := Nat.lt_of_le_of_ne allowed.1.1 allowed.2.1
  have htext : text ≠ [] := by
    rintro rfl
    have hsize := Text.isBoundary_le allowed.1.2.2
    rw [Text.size_nil] at hsize
    omega
  have ht := run.tiles htext
  have hthreaded := run.threaded htext
  obtain ⟨l, hshown, rfl⟩ := Option.map_eq_some_iff.mp hrendered
  obtain ⟨a, b, h⟩ := run.spanned htext allowed hclear
  rw [Weave.apply, if_neg allowed.2.1] at hw
  obtain ⟨wiped, hwiped, rfl⟩ := h.exists_wiped hw
  have hstart := hthreaded.shown_split ht allowed.1.2.1 hshown
  have hspan := (hthreaded.split ht allowed.1.2.1).shown_split (ht.split allowed.1.2.1)
    allowed.1.2.2 hstart
  have hsplit : ∀ side k t, .attached side k t ∈ o.weave.portions l → .attached side k t ∈
      ((o.weave.split s.start).split s.stop).portions
        ((l.flatMap (Segment.cut s.start)).flatMap (Segment.cut s.stop)) := fun side k t hp =>
    (ht.split allowed.1.2.1).portions_split allowed.1.2.2 (Weave.shown_subset hstart)
      (ht.portions_split allowed.1.2.1 (Weave.shown_subset hshown) hp)
  have hshown' := Weave.shown_map (w := (o.weave.split s.start).split s.stop)
    (g := overwrite s wiped content) fun _ => overwrite_start
  rw [hspan, Option.map_some] at hshown'
  have hportions : ∀ o' : Overlay, o'.weave = { (o.weave.split s.start).split s.stop with
      segments := ((o.weave.split s.start).split s.stop).segments.map
        (overwrite s wiped content) } → o'.portions = some (o'.weave.portions
          (((l.flatMap (Segment.cut s.start)).flatMap (Segment.cut s.stop)).map
            (overwrite s wiped content))) := by
    intro o' ho'
    rw [portions, ho', hshown', Option.map_some]
  refine ⟨_, hportions _ rfl, ⟨render_of_portions hrendered, render_of_portions (hportions _ rfl)⟩,
    ?_, ?_, ?_, ?_⟩
  · intro side k t hp
    exact (run.bears htext).of_mem_portions ht (Weave.shown_subset hshown) hp
  · intro side k t hp hout
    exact h.portions_kept hwiped (Weave.shown_subset hspan) (hsplit _ _ _ hp) hout
  · intro t hp
    exact h.portions_before hwiped (Weave.shown_subset hspan) (hsplit _ _ _ hp)
  · intro t hp
    exact h.portions_behind hwiped hspan (hsplit _ _ _ hp)

end Update

/-- Texts at both ends of a span and two strictly inside, and a move to the start of the span. -/
def cutThrough : List Edit :=
  [.insert .right .back 2 ['<'], .insert .left .back 2 ['('], .insert .left .back 6 ['>'],
    .insert .right .back 6 [')'], .insert .left .back 4 ['x'], .insert .right .back 5 ['y'],
    .relocate ⟨7, 8⟩ 2]

theorem cutThrough_keeps_edges : ∃ o o' ps ps',
    (ofText "abcdefgh".toList).applyAll cutThrough = .ok o ∧ o.portions = some ps ∧
    o.apply (.update ⟨2, 6⟩ ['X']) = .ok o' ∧
    (∀ m ∈ moves cutThrough, ¬ (Span.mk 2 6).Encloses m.2) ∧ o'.portions = some ps' ∧
    o.render = some "ab(h<cdxeyf>)g".toList ∧ o'.render = some "ab(h<Xxyf>)g".toList ∧
    KeepsEdges cutThrough ⟨2, 6⟩ ['X'] o o' ps ps' := by
  obtain ⟨o, o', ps, ho, hps, ho', hrender, hrender'⟩ : ∃ o o' ps,
      (ofText "abcdefgh".toList).applyAll cutThrough = .ok o ∧ o.portions = some ps ∧
        o.apply (.update ⟨2, 6⟩ ['X']) = .ok o' ∧ o.render = some "ab(h<cdxeyf>)g".toList ∧
        o'.render = some "ab(h<Xxyf>)g".toList := ⟨_, _, _, rfl, rfl, rfl, rfl, rfl⟩
  have hclear : ∀ m ∈ moves cutThrough, ¬ (Span.mk 2 6).Encloses m.2 := by decide
  obtain ⟨ps', hps', hkeeps⟩ := update_keeps_edges ho hps ho' hclear
  exact ⟨o, o', ps, ps', ho, hps, ho', hclear, hps', hrender, hrender', hkeeps⟩

end GadgetBuild.Overlay
