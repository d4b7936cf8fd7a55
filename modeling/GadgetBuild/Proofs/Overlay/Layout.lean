import GadgetBuild.Proofs.Overlay.Arrangement

/-!
The segments of an overlay as a run of edits lays them out. What replaces a span is one segment,
the segments start at offsets that edits have named, and only at a seam does one stand behind
another that is not before it in the text. So a span without a seam inside is one run of segments.
-/

namespace GadgetBuild.Overlay

/-- The offsets in the segment. -/
def Segment.bytes (s : Segment) : List Nat :=
  List.range' s.start s.text.size

theorem Segment.mem_bytes {s : Segment} : k ∈ s.bytes ↔ s.span.Has k := by
  simp only [bytes, List.mem_range'_1]
  rfl

theorem Segment.exists_bytes {s : Segment} (h : s.start < s.stop) :
    ∃ bytes, s.bytes = s.start :: bytes := by
  have hsize : Text.size s.text = Text.size s.text - 1 + 1 := by
    have : s.stop = s.start + Text.size s.text := rfl
    omega
  rw [Segment.bytes, hsize, List.range'_succ]
  exact ⟨_, rfl⟩

theorem Tiles.bytes_eq {t : Text} (h : Tiles a segments t) :
    segments.flatMap Segment.bytes = List.range' a t.size := by
  induction segments generalizing a t with
  | nil =>
    cases h
    rfl
  | cons s segments ih =>
    obtain ⟨rfl, _, rest, rfl, htiles⟩ := h
    rw [List.flatMap_cons, ih htiles, Text.size_append, Segment.bytes, Segment.stop,
      List.range'_append_1]

/-- Each segment starts where the one before it stops, or at a seam. -/
def Joined (moved : List (Span × Nat)) : Nat → List Segment → Prop
  | _, [] => True
  | a, s :: l => (s.start = a ∨ Seam moved s.start) ∧ Joined moved s.stop l

namespace Joined

theorem of_append (h : Joined moved a (p ++ q)) :
    Joined moved a p ∧ ∃ b, Joined moved b q := by
  induction p generalizing a with
  | nil => exact ⟨trivial, a, h⟩
  | cons s p ih =>
    obtain ⟨hp, hq⟩ := ih h.2
    exact ⟨⟨h.1, hp⟩, hq⟩

/-- Parts can be put together where a seam is. -/
theorem append (hp : Joined moved a p) (hq : Joined moved b q)
    (hseam : ∀ s, q.head? = some s → Seam moved s.start) : Joined moved a (p ++ q) := by
  induction p generalizing a with
  | nil =>
    cases q with
    | nil => trivial
    | cons s q => exact ⟨Or.inr (hseam s rfl), hq.2⟩
  | cons s p ih => exact ⟨hp.1, ih hp.2⟩

theorem mono (h : Joined moved a l) : Joined (moved ++ more) a l := by
  induction l generalizing a with
  | nil => trivial
  | cons s l ih => exact ⟨h.1.imp_right Seam.of_append, ih h.2⟩

theorem congr (h : Joined moved a (p ++ q)) (hq : ∀ b, Joined moved b q → Joined moved b q') :
    Joined moved a (p ++ q') := by
  induction p generalizing a with
  | nil => exact hq a h
  | cons s p ih => exact ⟨h.1, ih h.2⟩

theorem before (h : Joined moved a (p ++ s :: q)) :
    Seam moved s.start ∨ (p = [] ∧ s.start = a) ∨ ∃ p' r, p = p' ++ [r] ∧ r.stop = s.start := by
  induction p generalizing a with
  | nil => exact h.1.elim (fun he => Or.inr (Or.inl ⟨rfl, he⟩)) Or.inl
  | cons r p ih =>
    rcases ih h.2 with hs | ⟨rfl, he⟩ | ⟨p', r', rfl, he⟩
    · exact Or.inl hs
    · exact Or.inr (Or.inr ⟨[], r, rfl, he.symm⟩)
    · exact Or.inr (Or.inr ⟨r :: p', r', rfl, he⟩)

theorem map (h : Joined moved a l) (hg : ∀ s ∈ l, (g s).start = s.start ∧ (g s).text = s.text) :
    Joined moved a (l.map g) := by
  induction l generalizing a with
  | nil => trivial
  | cons s l ih =>
    obtain ⟨hstart, htext⟩ := hg s (by simp)
    have hstop : (g s).stop = s.stop := by
      rw [Segment.stop, hstart, htext]
      rfl
    refine ⟨hstart ▸ h.1, ?_⟩
    rw [hstop]
    exact ih h.2 fun r hr => hg r (by simp [hr])

end Joined

/-- Segments shown one behind the other that make up a span. -/
structure Run (s : Span) (run : List Segment) (first last : Segment) : Prop where
  head_eq : run.head? = some first
  start_eq : first.start = s.start
  last_eq : run.getLast? = some last
  stop_eq : last.stop = s.stop
  bytes_eq : run.flatMap Segment.bytes = List.range' s.start (s.stop - s.start)

namespace Run

theorem single {u : Segment} (h : u.stop = stop) : Run ⟨u.start, stop⟩ [u] u u where
  head_eq := rfl
  start_eq := rfl
  last_eq := rfl
  stop_eq := h
  bytes_eq := by
    have hlen : Text.size u.text = stop - u.start := by
      rw [← h, Segment.stop, Nat.add_sub_cancel_left]
    simp [Segment.bytes, hlen]

theorem cons {u v : Segment} (h : Run ⟨v.start, stop⟩ run v last) (hu : u.stop = v.start)
    (hv : v.start ≤ stop) : Run ⟨u.start, stop⟩ (u :: run) u last where
  head_eq := rfl
  start_eq := rfl
  last_eq := by rw [List.getLast?_cons, h.last_eq, Option.getD_some]
  stop_eq := h.stop_eq
  bytes_eq := by
    have hstop : u.stop = u.start + Text.size u.text := rfl
    have hlen : stop - u.start = Text.size u.text + (stop - v.start) := by omega
    rw [List.flatMap_cons, h.bytes_eq, hlen, ← List.range'_append_1, Segment.bytes, ← hu, hstop]

end Run

/-- The weave shows the segments, no named offset is inside one of them, and their bytes are in the
order in which moves put them. -/
structure Arranged (text : Text) (moved : List (Span × Nat)) (named order : List Nat) (w : Weave)
    (l : List Segment) : Prop where
  shows : w.Shows text l
  joined : Joined moved 0 l
  clear : ∀ k ∈ named, ∀ s ∈ l, s.straddles k = false
  order : l.flatMap Segment.bytes = order

/-- Besides, what replaces a span is one segment, and all segments start at named offsets. -/
structure Layout (text : Text) (replaced : List (Span × Text)) (moved : List (Span × Nat))
    (named order : List Nat) (w : Weave) (l : List Segment) : Prop
    extends Arranged text moved named order w l where
  replaced : Replaced replaced l
  starts : ∀ s ∈ l, s.start = 0 ∨ s.start ∈ named

/-- An offset is strictly inside a part of a segment only if it is so inside the segment, and not
where the parts meet. -/
theorem Segment.not_straddles_parts {s a b : Segment} (hstart : a.start = s.start)
    (ha : a.stop = i) (hb : b.start = i) (hstop : b.stop = s.stop)
    (hin : s.start ≤ i ∧ i ≤ s.stop) (hk : s.straddles k = false ∨ k = i) :
    a.straddles k = false ∧ b.straddles k = false := by
  have hs : k ≤ s.start ∨ s.stop ≤ k ∨ k = i := by
    rcases hk with hk | hk
    · have := Segment.not_straddles_iff.mp hk
      omega
    · exact Or.inr (Or.inr hk)
  exact ⟨Segment.not_straddles_iff.mpr (by omega), Segment.not_straddles_iff.mpr (by omega)⟩

namespace Arranged

variable {text : Text} {moved : List (Span × Nat)} {named order : List Nat} {w : Weave}
  {l : List Segment}

theorem ofText (h : text ≠ []) :
    Arranged text [] [] (List.range text.size) (.ofText text) [⟨0, text, [], none, []⟩] where
  shows := .ofText h
  joined := ⟨Or.inl rfl, trivial⟩
  clear k hk := by cases hk
  order := by simp [Segment.bytes, List.range_eq_range']

/-- A cut keeps the order of the bytes. -/
theorem split (h : Arranged text moved named order w l) (hi : Text.isBoundary i text = true) :
    Arranged text moved (named ++ [i]) order (w.split i) (l.flatMap (Segment.cut i)) := by
  have hsplit := h.shows.split hi
  rcases h.shows.cut_cases hi with hno | ⟨p, s, q, x, y, rfl, hstr, hxy, hx, hy, he, hother, hcut⟩
  · rw [Segment.flatMap_cut_of_not_straddles hno] at hsplit ⊢
    refine ⟨hsplit, h.joined, ?_, h.order⟩
    intro k hk s hs
    rcases List.mem_append.mp hk with hk | hk
    · exact h.clear k hk s hs
    · rw [List.mem_singleton.mp hk]
      exact hno s hs
  · have hin := Segment.straddles_iff.mp hstr
    rw [hcut] at hsplit ⊢
    have hstop : i + Text.size y = s.stop := by
      rw [Segment.stop, hxy, Text.size_append]
      omega
    refine ⟨hsplit, ?_, ?_, ?_⟩
    · refine h.joined.congr fun b hb => ⟨hb.1, Or.inl he.symm, ?_⟩
      change Joined moved (i + Text.size y) q
      rw [hstop]
      exact hb.2
    · intro k hk
      have hk : k ∈ named ∨ k = i := by simpa using hk
      have houtside : ∀ r ∈ p ++ q, r.straddles k = false := by
        intro r hr
        rcases hk with hk | rfl
        · exact h.clear k hk r (mem_of_mem_others (m := [s]) hr)
        · exact hother r hr
      obtain ⟨hx, hy⟩ := Segment.not_straddles_parts (s := s)
        (a := { s with text := x, trail := [] })
        (b := ⟨i, y, [], s.content.map fun _ => [], s.trail⟩) rfl he rfl hstop (by omega)
        (hk.imp_left fun hk => h.clear k hk s (by simp))
      intro r hr
      simp only [List.mem_append, List.mem_cons] at hr
      rcases hr with hr | rfl | rfl | hr
      · exact houtside r (List.mem_append_left q hr)
      · exact hx
      · exact hy
      · exact houtside r (List.mem_append_right p hr)
    · rw [← h.order]
      simp only [List.flatMap_append, List.flatMap_cons, Segment.bytes, hxy, Text.size_append, ← he,
        ← List.range'_append_1, List.append_assoc]

/-- An offset at an end of the text is named without a cut. -/
theorem name (h : Arranged text moved named order w l) (hi : i = 0 ∨ i = text.size) :
    Arranged text moved (named ++ [i]) order w l := by
  refine ⟨h.shows, h.joined, ?_, h.order⟩
  intro k hk s hs
  rcases List.mem_append.mp hk with hk | hk
  · exact h.clear k hk s hs
  · have := h.shows.tiles.bounds s (h.shows.mem.mp hs)
    rw [List.mem_singleton.mp hk]
    exact Segment.not_straddles_iff.mpr (by omega)

/-- What is shown before and behind all segments does not matter. -/
theorem congr (h : Arranged text moved named order w l) (hsegments : w'.segments = w.segments)
    (hchain : w'.chain = w.chain) : Arranged text moved named order w' l :=
  { h with shows := ⟨hsegments ▸ h.shows.tiles, hsegments ▸ h.shows.perm, hchain ▸ h.shows.order⟩ }

/-- Nor does what is shown for the segments and around them. -/
theorem map (h : Arranged text moved named order w l) (hshows : w'.Shows text (l.map g))
    (hg : ∀ s, (g s).start = s.start ∧ (g s).text = s.text) :
    Arranged text moved named order w' (l.map g) := by
  have hstop : ∀ s, (g s).stop = s.stop := by
    intro s
    rw [Segment.stop, (hg s).1, (hg s).2]
    rfl
  refine ⟨hshows, h.joined.map fun s _ => hg s, ?_, ?_⟩
  · intro k hk s hs
    obtain ⟨r, hr, rfl⟩ := List.mem_map.mp hs
    rw [Segment.straddles, (hg r).1, hstop]
    exact h.clear k hk r hr
  · rw [← h.order, List.flatMap_map]
    apply List.flatMap_congr
    intro s _
    rw [Segment.bytes, (hg s).1, (hg s).2]
    rfl

theorem modify (h : Arranged text moved named order w l) (which : Segment → Bool)
    (hf : ∀ s, (f s).start = s.start ∧ (f s).text = s.text) :
    ∃ l', Arranged text moved named order (w.modify which f) l' := by
  refine ⟨_, h.map (h.shows.modify which hf) fun s => ?_⟩
  split
  · exact hf s
  · exact ⟨rfl, rfl⟩

/-- A segment that changes in place. -/
theorem exchange (h : Arranged text moved named order w (p ++ s :: q))
    (hshows : w'.Shows text (p ++ s' :: q)) (hstart : s'.start = s.start)
    (htext : s'.text = s.text) : Arranged text moved named order w' (p ++ s' :: q) := by
  have hstop : s'.stop = s.stop := by
    rw [Segment.stop, hstart, htext]
    rfl
  refine ⟨hshows, ?_, ?_, ?_⟩
  · refine h.joined.congr fun b hb => ⟨hstart ▸ hb.1, ?_⟩
    rw [hstop]
    exact hb.2
  · intro k hk r hr
    rcases List.mem_append.mp hr with hr | hr
    · exact h.clear k hk r (by simp [hr])
    · rcases List.mem_cons.mp hr with rfl | hr
      · rw [Segment.straddles, hstart, hstop]
        exact h.clear k hk s (by simp)
      · exact h.clear k hk r (by simp [hr])
  · rw [← h.order]
    simp only [List.flatMap_append, List.flatMap_cons, Segment.bytes, hstart, htext]

/-- Segments in a new order. -/
theorem rearrange (h : Arranged text moved named order w l) (hshows : w'.Shows text l')
    (hperm : l'.Perm l) (hjoined : Joined moved' 0 l')
    (horder : l'.flatMap Segment.bytes = order') : Arranged text moved' named order' w' l' :=
  ⟨hshows, hjoined, fun k hk s hs => h.clear k hk s (hperm.mem_iff.mp hs), horder⟩

theorem nodup (h : Arranged text moved named order w l) : order.Nodup := by
  rw [← h.order, (h.shows.perm.flatMap_right _).nodup_iff, h.shows.tiles.bytes_eq]
  exact List.nodup_range'

/-- Where no move tears the text, what is behind a segment is shown behind it. -/
theorem follows (h : Arranged text moved named order w (p ++ u :: rest))
    (hlt : u.stop < text.size) (hseam : ¬ Seam moved u.stop) :
    ∃ v q, rest = v :: q ∧ v.start = u.stop := by
  have hu : u ∈ p ++ u :: rest := by simp
  have hsolid := h.shows.tiles.solid u (h.shows.mem.mp hu)
  have hclear : ∀ s ∈ w.segments, s.straddles u.stop = false := by
    intro s hs
    by_contra hc
    have hin := Segment.straddles_iff.mp (by simpa using hc)
    have hsu := h.shows.tiles.eq_of_meet hs (h.shows.mem.mp hu) (by omega) (by omega)
    subst hsu
    omega
  obtain ⟨v, hv, hvu⟩ := h.shows.tiles.exists_start hclear (Nat.zero_le _) (by omega)
  obtain ⟨p', q, he⟩ := List.append_of_mem (h.shows.mem.mpr hv)
  have hjoined := h.joined
  rw [he] at hjoined
  rcases hjoined.before with hs | ⟨_, hs⟩ | ⟨p'', r, rfl, hr⟩
  · exact absurd (hvu ▸ hs) hseam
  · omega
  · have hrl : r ∈ p ++ u :: rest := by
      rw [he]
      simp
    obtain rfl := h.shows.eq_of_stop hrl hu (hr.trans hvu)
    have hnot := h.shows.notMem
    rw [List.append_assoc, List.singleton_append] at he
    obtain ⟨_, _, hrest⟩ := (List.append_cons_inj_of_notMem (fun hm => hnot (by simp [hm]))
      fun hm => hnot (by simp [hm])).mp he
    exact ⟨v, q, hrest, hvu⟩

/-- From a segment inside a span on, up to the end of the span. -/
theorem exists_run_from (h : Arranged text moved named order w (p ++ u :: rest))
    (hstop : stop ≤ text.size) (hseam : ∀ k, u.start < k → k < stop → ¬ Seam moved k)
    (hclear : ∀ r ∈ p ++ u :: rest, r.straddles stop = false) (hs : u.start < stop) :
    ∃ run q last, u :: rest = run ++ q ∧ Run ⟨u.start, stop⟩ run u last := by
  induction rest generalizing p u with
  | nil =>
    have hsolid := h.shows.tiles.solid u (h.shows.mem.mp (by simp))
    have hu := Segment.not_straddles_iff.mp (hclear u (by simp))
    have hend : u.stop = stop := by
      by_contra hne
      obtain ⟨v, q, hnil, _⟩ := h.follows (by omega) (hseam u.stop hsolid (by omega))
      cases hnil
    exact ⟨[u], [], u, rfl, .single hend⟩
  | cons v rest ih =>
    have hsolid := h.shows.tiles.solid u (h.shows.mem.mp (by simp))
    have hu := Segment.not_straddles_iff.mp (hclear u (by simp))
    by_cases hend : u.stop = stop
    · exact ⟨[u], v :: rest, u, rfl, .single hend⟩
    · obtain ⟨v', q', he, hv⟩ := h.follows (by omega) (hseam u.stop hsolid (by omega))
      obtain ⟨rfl, rfl⟩ := List.cons.inj he
      rw [List.append_cons] at h hclear
      obtain ⟨run, q, last, hrest, hrun⟩ :=
        ih h (fun k hlo => hseam k (by omega)) hclear (by omega)
      exact ⟨u :: run, q, last, by rw [hrest, List.cons_append], hrun.cons hv.symm (by omega)⟩

/-- Offsets below the size of the text are all that is arranged. -/
theorem lt_size (h : Arranged text moved named order w l) (hk : k ∈ order) :
    k < text.size := by
  rw [← h.order, (h.shows.perm.flatMap_right _).mem_iff, h.shows.tiles.bytes_eq,
    List.mem_range'_1] at hk
  omega

/-- A span is one run of segments if no move tears it. -/
theorem exists_run {s : Span} (h : Arranged text moved named order w l)
    (hs : s.start < s.stop) (hin : s.stop ≤ text.size)
    (hseam : ∀ k, s.start < k → k < s.stop → ¬ Seam moved k)
    (hstart : s.start ∈ named) (hstop : s.stop ∈ named) :
    ∃ p run q first last, l = p ++ (run ++ q) ∧ Run s run first last := by
  have hclear : ∀ r ∈ w.segments, r.straddles s.start = false := fun r hr =>
    h.clear s.start hstart r (h.shows.mem.mpr hr)
  obtain ⟨u, hu, hus⟩ := h.shows.tiles.exists_start hclear (Nat.zero_le _) (by omega)
  obtain ⟨p, rest, rfl⟩ := List.append_of_mem (h.shows.mem.mpr hu)
  obtain ⟨run, q, last, hrest, hrun⟩ :=
    h.exists_run_from hin (fun k hlo => hseam k (by omega)) (h.clear s.stop hstop) (by omega)
  rw [hus] at hrun
  exact ⟨p, run, q, u, last, by rw [hrest], hrun⟩

end Arranged

namespace Layout

variable {text : Text} {replaced : List (Span × Text)} {moved : List (Span × Nat)}
  {named order : List Nat} {w : Weave} {l : List Segment}

theorem ofText (h : text ≠ []) :
    Layout text [] [] [] (List.range text.size) (.ofText text) [⟨0, text, [], none, []⟩] where
  toArranged := .ofText h
  replaced r c := by simp
  starts s hs := by
    rw [List.mem_singleton.mp hs]
    exact Or.inl rfl

/-- A segment that meets no replaced span is shown with its own text. -/
theorem content_eq_none (h : Layout text replaced moved named order w l) (hs : s ∈ l)
    (hfree : ∀ r ∈ replaced, ¬ r.1.Meets start stop) (hmeets : s.span.Meets start stop) :
    s.content = none := by
  cases hc : s.content with
  | none => rfl
  | some c => exact absurd hmeets (hfree _ ((h.replaced s.span c).mpr ⟨s, hs, rfl, hc⟩))

/-- A cut at an offset that is in no replaced span. -/
theorem split (h : Layout text replaced moved named order w l)
    (hi : Text.isBoundary i text = true) (hfree : ∀ r ∈ replaced, ¬ r.1.Meets i i) :
    Layout text replaced moved (named ++ [i]) order (w.split i) (l.flatMap (Segment.cut i)) := by
  refine ⟨h.toArranged.split hi, ?_, ?_⟩
  · rcases h.shows.cut_cases hi with hno | ⟨p, s, q, x, y, rfl, hstr, -, -, -, -, -, hcut⟩
    · rw [Segment.flatMap_cut_of_not_straddles hno]
      exact h.replaced
    · have hnone := h.content_eq_none (by simp) hfree (Segment.straddles_iff.mp hstr)
      intro r c
      rw [hcut, h.replaced r c]
      simp only [List.mem_append, List.mem_cons, or_and_right, exists_or, exists_eq_left, hnone,
        Option.map_none, reduceCtorEq, and_false, false_or]
  · intro r hr
    obtain ⟨s, hs, hcut⟩ := List.mem_flatMap.mp hr
    unfold Segment.cut at hcut
    split at hcut
    · simp only [List.mem_cons, List.not_mem_nil, or_false] at hcut
      rcases hcut with rfl | rfl
      · exact (h.starts s hs).imp_right (List.mem_append_left _)
      · exact Or.inr (by simp)
    · rw [List.mem_singleton.mp hcut]
      exact (h.starts s hs).imp_right (List.mem_append_left _)

theorem name (h : Layout text replaced moved named order w l) (hi : i = 0 ∨ i = text.size) :
    Layout text replaced moved (named ++ [i]) order w l :=
  ⟨h.toArranged.name hi, h.replaced, fun s hs => (h.starts s hs).imp_right (List.mem_append_left _)⟩

theorem congr (h : Layout text replaced moved named order w l)
    (hsegments : w'.segments = w.segments) (hchain : w'.chain = w.chain) :
    Layout text replaced moved named order w' l :=
  { h with toArranged := h.toArranged.congr hsegments hchain }

/-- What is shown around the segments does not matter. -/
theorem adorn (h : Layout text replaced moved named order w l) (hshows : w'.Shows text (l.map g))
    (hg : ∀ s, (g s).start = s.start ∧ (g s).text = s.text ∧ (g s).content = s.content) :
    Layout text replaced moved named order w' (l.map g) := by
  have hstop : ∀ s, (g s).stop = s.stop := by
    intro s
    rw [Segment.stop, (hg s).1, (hg s).2.1]
    rfl
  refine ⟨h.toArranged.map hshows fun s => ⟨(hg s).1, (hg s).2.1⟩, ?_, ?_⟩
  · intro r c
    rw [h.replaced r c]
    simp [Segment.span, hg, hstop]
  · intro s hs
    obtain ⟨r, hr, rfl⟩ := List.mem_map.mp hs
    rw [(hg r).1]
    exact h.starts r hr

/-- A segment is replaced as a whole. -/
theorem replace (h : Layout text replaced moved named order w (p ++ s :: q))
    (hshows : w'.Shows text (p ++ s' :: q)) (hstart : s'.start = s.start) (htext : s'.text = s.text)
    (hnone : s.content = none) (hc : s'.content = some content) :
    Layout text (replaced ++ [(s.span, content)]) moved named order w' (p ++ s' :: q) := by
  have hspan : s'.span = s.span := by
    rw [Segment.span, Segment.stop, hstart, htext]
    rfl
  refine ⟨h.toArranged.exchange hshows hstart htext, ?_, ?_⟩
  · intro r c
    have hr := h.replaced r c
    simp only [List.mem_append, List.mem_cons, or_and_right, exists_or, exists_eq_left, hnone,
      reduceCtorEq, and_false, false_or] at hr
    simp only [List.mem_append, List.mem_cons, List.not_mem_nil, or_false, or_and_right, exists_or,
      exists_eq_left, hspan, hc, hr, Prod.mk.injEq, Option.some.injEq]
    rw [or_assoc, or_comm (a := _ ∧ _), eq_comm, eq_comm (a := c)]
  · intro r hr
    rcases List.mem_append.mp hr with hr | hr
    · exact h.starts r (by simp [hr])
    · rcases List.mem_cons.mp hr with rfl | hr
      · rw [hstart]
        exact h.starts s (by simp)
      · exact h.starts r (by simp [hr])

/-- Segments in a new order. -/
theorem rearrange (h : Layout text replaced moved named order w l)
    (harranged : Arranged text moved' named order' w' l') (hperm : l'.Perm l) :
    Layout text replaced moved' named order' w' l' :=
  ⟨harranged, fun r c => by simp only [h.replaced r c, hperm.mem_iff],
    fun s hs => h.starts s (hperm.mem_iff.mp hs)⟩

end Layout

namespace Run

variable {text : Text} {moved : List (Span × Nat)}
  {named order : List Nat} {w : Weave} {p run q : List Segment}

theorem has_iff (h : Run s run first last) : k ∈ run.flatMap Segment.bytes ↔ s.Has k := by
  rw [h.bytes_eq, List.mem_range'_1]
  unfold Span.Has
  omega

/-- Nothing else shown is in the span. -/
theorem others (hrun : Run s run first last)
    (h : Arranged text moved named order w (p ++ (run ++ q))) :
    ∀ k ∈ (p ++ q).flatMap Segment.bytes, ¬ s.Has k := by
  intro k hk hhas
  have hnodup := h.nodup
  rw [← h.order, List.flatMap_append, List.flatMap_append, List.nodup_append',
    List.nodup_append'] at hnodup
  obtain ⟨_, ⟨_, _, hrunq⟩, hprun⟩ := hnodup
  have hin := hrun.has_iff.mpr hhas
  rw [List.flatMap_append] at hk
  rcases List.mem_append.mp hk with hk | hk
  · exact hprun hk (List.mem_append_left _ hin)
  · exact hrunq hin hk

/-- What is shown right behind the span. -/
theorem infix_iff (hrun : Run s run first last) (hs : s.start < s.stop)
    (h : Arranged text moved named order w (p ++ (run ++ q))) :
    [s.stop - 1, i] <:+: order ↔ ∃ v, q.head? = some v ∧ v.start = i := by
  have hbytes : run.flatMap Segment.bytes =
      List.range' s.start (s.stop - 1 - s.start) ++ [s.stop - 1] := by
    have hlen : s.stop - s.start = s.stop - 1 - s.start + 1 := by omega
    have hlast : s.start + (s.stop - 1 - s.start) = s.stop - 1 := by omega
    rw [hrun.bytes_eq, hlen, List.range'_1_concat, hlast]
  have hnodup := h.nodup
  have horder := h.order
  rw [List.flatMap_append, List.flatMap_append, hbytes, List.append_assoc, ← List.append_assoc,
    List.singleton_append] at horder
  rw [← horder] at hnodup ⊢
  rw [Overlay.infix_iff hnodup]
  cases q with
  | nil => simp
  | cons v q =>
    obtain ⟨bytes, hv⟩ := v.exists_bytes (h.shows.tiles.solid v (h.shows.mem.mp (by simp)))
    rw [List.flatMap_cons, hv]
    simp

/-- What is shown first. -/
theorem head_iff (hrun : Run s run first last) (hs : s.start < s.stop)
    (h : Arranged text moved named order w (p ++ (run ++ q))) :
    order.head? = some s.start ↔ p = [] := by
  have hshown : ∀ v m, p ++ (run ++ q) = v :: m → order.head? = some v.start := by
    intro v m hv
    obtain ⟨bytes, hbytes⟩ :=
      v.exists_bytes (h.shows.tiles.solid v (h.shows.mem.mp (hv ▸ List.mem_cons_self)))
    rw [← h.order, hv, List.flatMap_cons, hbytes]
    rfl
  obtain ⟨m, hm⟩ := List.head?_eq_some_iff.mp hrun.head_eq
  constructor
  · intro hhead
    cases p with
    | nil => rfl
    | cons v p =>
      rw [hshown v _ rfl] at hhead
      have hv : v.span.Has v.start :=
        ⟨Nat.le_refl _, h.shows.tiles.solid v (h.shows.mem.mp (by simp))⟩
      refine absurd ?_ (hrun.others h v.start (List.mem_flatMap.mpr
        ⟨v, by simp, Segment.mem_bytes.mpr hv⟩))
      rw [Option.some.inj hhead]
      exact ⟨Nat.le_refl _, hs⟩
  · rintro rfl
    rw [hshown first (m ++ q) (by rw [hm, List.nil_append, List.cons_append]), hrun.start_eq]

end Run
end GadgetBuild.Overlay
