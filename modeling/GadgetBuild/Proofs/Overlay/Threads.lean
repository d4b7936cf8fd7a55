import GadgetBuild.Proofs.Overlay.Steps
import GadgetBuild.Proofs.Overlay.Walks

/-!
Where the links of a weave lead after any accepted edits, even if text is lost. A link leads to the
segment that follows in the text or to a seam of a move. So a walk that comes to the inside of a
span without seams has come there from the start of the span, in the order of the text.
-/

namespace GadgetBuild.Overlay

variable {text : Text} {moved : List (Span × Nat)} {w : Weave}

/-- Where the segments start. -/
def Weave.starts (w : Weave) : List Nat :=
  w.segments.map (·.start)

/-- Some number of steps along the links leads to the last segment. -/
def Weave.Ends (w : Weave) : Prop :=
  ∃ n starts, w.chain.walk none n (some w.chain.first) = some starts

/-- A link from where a part of the text stops leads to the part behind it, to a seam or nowhere. -/
def Continues (moved : List (Span × Nat)) (starts : List Nat) (stop : Nat) (link : Option Nat) :
    Prop :=
  ∀ k ∈ link, k ∈ starts ∧ (k = stop ∨ Seam moved k)

/-- The links forward follow the text, except where moves tear it. -/
structure Threaded (moved : List (Span × Nat)) (w : Weave) : Prop where
  first : Continues moved w.starts 0 (some w.chain.first)
  next : ∀ r ∈ w.segments, Continues moved w.starts r.stop (w.chain.next.get r.start)

theorem Continues.mono (h : Continues moved starts stop link) (hsub : starts ⊆ starts') :
    Continues moved starts' stop link :=
  fun k hk => ⟨hsub (h k hk).1, (h k hk).2⟩

theorem Continues.append (h : Continues moved starts stop link) (more : List (Span × Nat)) :
    Continues (moved ++ more) starts stop link :=
  fun k hk => ⟨(h k hk).1, (h k hk).2.imp_right Seam.of_append⟩

theorem Weave.mem_starts : k ∈ w.starts ↔ ∃ r ∈ w.segments, r.start = k :=
  List.mem_map

/-- The other segments of a tiling are before a segment or behind it. -/
theorem Tiles.others (h : Tiles a (p ++ s :: q) text) :
    ∀ r ∈ p ++ q, r.start < r.stop ∧ (r.stop ≤ s.start ∨ s.stop ≤ r.start) := by
  have hord := h.ordered
  rw [List.pairwise_append, List.pairwise_cons] at hord
  intro r hr
  refine ⟨h.solid r (mem_of_mem_others (m := [s]) hr), ?_⟩
  rcases List.mem_append.mp hr with hr | hr
  · exact Or.inl (hord.2.2 r hr s (by simp))
  · exact Or.inr (hord.2.1.1 r hr)

/-- Two segments `a` and `b` come in place of `s` when a weave is cut inside it. -/
structure Halves (w : Weave) (i : Nat) (p q : List Segment) (s a b : Segment) : Prop where
  segments_eq : w.segments = p ++ s :: q
  split_eq : w.split i =
    { w with segments := p ++ a :: b :: q, chain := w.chain.insertAfter s.start i }
  cut_eq : s.cut i = [a, b]
  inside : s.start < i ∧ i < s.stop
  first : a.start = s.start ∧ a.stop = i ∧ a.lead = s.lead ∧ a.trail = []
  second : b.start = i ∧ b.stop = s.stop ∧ b.lead = [] ∧ b.trail = s.trail
  others : ∀ r ∈ p ++ q, r.start < r.stop ∧ (r.stop ≤ s.start ∨ s.stop ≤ r.start)

theorem Tiles.split_cases (h : Tiles 0 w.segments text) (hi : Text.isBoundary i text = true) :
    (∀ r ∈ w.segments, r.straddles i = false) ∧ w.split i = w ∨
      ∃ p q s a b, Halves w i p q s a b := by
  cases hf : w.segments.find? (·.straddles i) with
  | none =>
    refine Or.inl ⟨fun r hr => by simpa using List.find?_eq_none.mp hf r hr, ?_⟩
    rw [Weave.split, hf]
  | some s =>
    have hs := List.mem_of_find?_eq_some hf
    have hstr : s.straddles i = true := by simpa using List.find?_some hf
    have hinside := Segment.straddles_iff.mp hstr
    obtain ⟨x, y, ht, hx, hy, he⟩ := Segment.exists_parts h hs (by simpa using hi) hstr
    have hstop : s.stop = s.start + Text.size s.text := rfl
    rw [ht, Text.size_append] at hstop
    obtain ⟨p, q, hpq⟩ := List.append_of_mem hs
    have hothers := Tiles.others (hpq ▸ h)
    have hclear : ∀ r ∈ p ++ q, r.straddles i = false := by
      intro r hr
      have := hothers r hr
      exact Segment.not_straddles_iff.mpr (by omega)
    refine Or.inr ⟨p, q, s, { s with text := x, trail := [] },
      ⟨i, y, [], s.content.map fun _ => [], s.trail⟩, hpq, ?_, Segment.cut_eq ht hx hy he,
      hinside, ⟨rfl, he, rfl, rfl⟩,
      ⟨rfl, ?_, rfl, rfl⟩, hothers⟩
    · rw [Weave.split, hf]
      dsimp only
      rw [hpq, List.flatMap_append, List.flatMap_cons, Segment.cut_eq ht hx hy he,
        Segment.flatMap_cut_of_not_straddles fun r hr => hclear r (by simp [hr]),
        Segment.flatMap_cut_of_not_straddles fun r hr => hclear r (by simp [hr])]
      rfl
    · change i + Text.size y = s.stop
      omega

namespace Halves

variable {p q : List Segment} {s a b : Segment}

theorem mem_iff (h : Halves w i p q s a b) :
    r ∈ (w.split i).segments ↔ r = a ∨ r = b ∨ r ∈ p ++ q := by
  rw [h.split_eq]
  simp only [List.mem_append, List.mem_cons]
  tauto

theorem mem (h : Halves w i p q s a b) : s ∈ w.segments := by
  simp [h.segments_eq]

theorem mem_of_other (h : Halves w i p q s a b) (hr : r ∈ p ++ q) : r ∈ w.segments := by
  rw [h.segments_eq]
  exact mem_of_mem_others (m := [s]) hr

theorem mem_starts_iff (h : Halves w i p q s a b) :
    k ∈ (w.split i).starts ↔ k = i ∨ k ∈ w.starts := by
  rw [Weave.starts, Weave.starts, h.split_eq, h.segments_eq]
  simp only [List.map_append, List.map_cons, h.first.1, h.second.1, List.mem_append, List.mem_cons]
  tauto

theorem not_straddles (h : Halves w i p q s a b) (hr : r ∈ w.segments) (hne : r ≠ s) :
    r.straddles i = false := by
  have hinside := h.inside
  rw [h.segments_eq, List.perm_middle.mem_iff, List.mem_cons] at hr
  have := h.others r (hr.resolve_left hne)
  exact Segment.not_straddles_iff.mpr (by omega)

theorem notMem_starts (h : Halves w i p q s a b) : i ∉ w.starts := by
  have hinside := h.inside
  intro hi
  obtain ⟨r, hr, hri⟩ := Weave.mem_starts.mp hi
  rw [h.segments_eq, List.perm_middle.mem_iff, List.mem_cons] at hr
  rcases hr with rfl | hr
  · omega
  · have := h.others r hr
    omega

theorem chain_first (h : Halves w i p q s a b) : (w.split i).chain.first = w.chain.first := by
  rw [h.split_eq]
  rfl

end Halves

/-- A part of a cut segment is inside the segment, and not around the offset of the cut. -/
theorem Tiles.of_mem_split (h : Tiles 0 w.segments text) (hi : Text.isBoundary i text = true)
    (hr : r ∈ (w.split i).segments) : r.straddles i = false ∧
      ∃ s ∈ w.segments, s.start ≤ r.start ∧ r.stop ≤ s.stop := by
  rcases h.split_cases hi with ⟨hclear, he⟩ | ⟨p, q, s, a, b, hcut⟩
  · rw [he] at hr
    exact ⟨hclear r hr, r, hr, Nat.le_refl _, Nat.le_refl _⟩
  · have hinside := hcut.inside
    have hfirst := hcut.first
    have hsecond := hcut.second
    rcases hcut.mem_iff.mp hr with rfl | rfl | hr
    · exact ⟨Segment.not_straddles_iff.mpr (by omega), s, hcut.mem, by omega, by omega⟩
    · exact ⟨Segment.not_straddles_iff.mpr (by omega), s, hcut.mem, by omega, by omega⟩
    · have := hcut.others r hr
      exact ⟨Segment.not_straddles_iff.mpr (by omega), r, hcut.mem_of_other hr, by omega, by omega⟩

/-- No segment has the offset strictly inside. -/
def CutAt (k : Nat) (w : Weave) : Prop :=
  ∀ r ∈ w.segments, r.straddles k = false

theorem Tiles.split_cutAt (h : Tiles 0 w.segments text) (hi : Text.isBoundary i text = true) :
    CutAt i (w.split i) :=
  fun _ hr => (h.of_mem_split hi hr).1

theorem CutAt.split (hk : CutAt k w) (h : Tiles 0 w.segments text)
    (hi : Text.isBoundary i text = true) : CutAt k (w.split i) := by
  intro r hr
  obtain ⟨s, hs, hstart, hstop⟩ := (h.of_mem_split hi hr).2
  have := Segment.not_straddles_iff.mp (hk s hs)
  exact Segment.not_straddles_iff.mpr (by omega)

/-- The cuts at the ends of a span. -/
theorem Tiles.split_span {s : Span} (h : Tiles 0 w.segments text) (hin : History.InText text s) :
    Tiles 0 ((w.split s.start).split s.stop).segments text :=
  (h.split hin.2.1).split hin.2.2

theorem Tiles.cutAt_span {s : Span} (h : Tiles 0 w.segments text) (hin : History.InText text s) :
    CutAt s.start ((w.split s.start).split s.stop) ∧
      CutAt s.stop ((w.split s.start).split s.stop) :=
  ⟨(h.split_cutAt hin.2.1).split (h.split hin.2.1) hin.2.2,
    (h.split hin.2.1).split_cutAt hin.2.2⟩

namespace Threaded

theorem ofText (text : Text) : Threaded [] (.ofText text) where
  first k hk := by
    obtain rfl := Option.some.inj hk
    exact ⟨List.mem_singleton.mpr rfl, Or.inl rfl⟩
  next r _ k hk := by cases hk

/-- What changes neither starts nor texts of segments changes no link. -/
theorem map (h : Threaded moved w) (hg : ∀ s, (g s).start = s.start ∧ (g s).text = s.text) :
    Threaded moved { w with segments := w.segments.map g } := by
  have hstarts : Weave.starts { w with segments := w.segments.map g } = w.starts := by
    rw [Weave.starts, Weave.starts, List.map_map]
    exact List.map_congr_left fun s _ => (hg s).1
  refine ⟨hstarts ▸ h.first, fun r hr => ?_⟩
  obtain ⟨s, hs, rfl⟩ := List.mem_map.mp hr
  have hstop : (g s).stop = s.stop := by
    rw [Segment.stop, (hg s).1, (hg s).2]
    rfl
  rw [hstarts, hstop, (hg s).1]
  exact h.next s hs

theorem modify (h : Threaded moved w) (which : Segment → Bool)
    (hf : ∀ s, (f s).start = s.start ∧ (f s).text = s.text) :
    Threaded moved (w.modify which f) := by
  apply h.map
  intro s
  split
  · exact hf s
  · exact ⟨rfl, rfl⟩

theorem append (h : Threaded moved w) (more : List (Span × Nat)) : Threaded (moved ++ more) w where
  first := h.first.append more
  next r hr := (h.next r hr).append more

theorem closed (h : Threaded moved w) : w.chain.next.Closed w.starts := by
  intro a ha b hb
  obtain ⟨r, hr, rfl⟩ := Weave.mem_starts.mp ha
  exact (h.next r hr b hb).1

theorem split (h : Threaded moved w) (ht : Tiles 0 w.segments text)
    (hi : Text.isBoundary i text = true) : Threaded moved (w.split i) := by
  rcases ht.split_cases hi with ⟨-, he⟩ | ⟨p, q, s, a, b, hcut⟩
  · rw [he]
    exact h
  · have hsub : w.starts ⊆ (w.split i).starts := fun k hk => hcut.mem_starts_iff.mpr (Or.inr hk)
    have hnext : ∀ k, (w.split i).chain.next.get k =
        if s.start = k then some i else if i = k then w.chain.next.get s.start
          else w.chain.next.get k := by
      intro k
      rw [hcut.split_eq]
      simp only [Chain.insertAfter, Links.get_set]
    have hinside := hcut.inside
    refine ⟨?_, fun r hr => ?_⟩
    · rw [hcut.chain_first]
      exact h.first.mono hsub
    · rw [hnext]
      rcases hcut.mem_iff.mp hr with rfl | rfl | hr
      · rw [hcut.first.1, if_pos rfl]
        intro k hk
        obtain rfl := Option.some.inj hk
        exact ⟨hcut.mem_starts_iff.mpr (Or.inl rfl), Or.inl hcut.first.2.1.symm⟩
      · rw [hcut.second.1, hcut.second.2.1, if_neg (by omega), if_pos rfl]
        exact (h.next s hcut.mem).mono hsub
      · have := hcut.others r hr
        rw [if_neg (by omega), if_neg (by omega)]
        exact (h.next r (hcut.mem_of_other hr)).mono hsub

theorem split_span {s : Span} (h : Threaded moved w) (ht : Tiles 0 w.segments text)
    (hin : History.InText text s) : Threaded moved ((w.split s.start).split s.stop) :=
  (h.split ht hin.2.1).split (ht.split hin.2.1) hin.2.2

theorem insert (h : Threaded moved w) (ht : Tiles 0 w.segments text)
    (hi : Text.isBoundary i text = true) (side : Side) (place : Place) (content : Text) :
    Threaded moved (w.insert side place i content) := by
  cases side with
  | left | right =>
    rw [Weave.insert]
    split
    · exact ⟨h.first, h.next⟩
    · exact (h.split ht hi).modify _ fun _ => ⟨rfl, rfl⟩

theorem replace {s : Span} (h : Threaded moved w) (ht : Tiles 0 w.segments text)
    (hin : History.InText text s) (hf : ∀ r, (f r).start = r.start ∧ (f r).text = r.text)
    (hw : w.replace s f = some w') : Threaded moved w' := by
  obtain ⟨b, inner, -, -, rfl⟩ := Weave.replace_eq_some_iff.mp hw
  exact ((h.split_span ht hin).modify _ hf).modify _ fun _ => ⟨rfl, rfl⟩

/-- The links that a move sets lead to an end of the moved span or to its target. -/
theorem relocate {s : Span} (h : Threaded moved w) (ht : Tiles 0 w.segments text)
    (hin : History.InText text s) (hs : s.start < s.stop) (hi : Text.isBoundary i text = true)
    (hw : w.relocate s i = some w') : Threaded (moved ++ [(s, i)]) w' := by
  have hspan := ht.split_span hin
  have hsplit := (h.split_span ht hin).split hspan hi
  have hseam : ∀ k, k = s.start ∨ k = s.stop ∨ k = i → Seam (moved ++ [(s, i)]) k :=
    fun k hk => ⟨(s, i), by simp, hk⟩
  have hstart : s.start ∈ (((w.split s.start).split s.stop).split i).starts := by
    have hcut := (ht.cutAt_span hin).1.split hspan hi
    have := Text.isBoundary_le hin.2.2
    exact Weave.mem_starts.mpr ((hspan.split hi).exists_start hcut (Nat.zero_le _) (by omega))
  obtain ⟨b, c, hend, hmove, rfl⟩ := Weave.relocate_eq_some_iff.mp hw
  generalize ((w.split s.start).split s.stop).split i = w' at hsplit hstart hend hmove
  obtain ⟨u, hu, rfl⟩ := Option.map_eq_some_iff.mp hend
  have hstop : u.stop = s.stop := by simpa using List.find?_some hu
  have hlink : ∀ link ∈ w'.chain.moveLinks s.start u.start (w'.startingAt? i), ∀ stop,
      Continues (moved ++ [(s, i)]) w'.starts stop link := by
    simp only [Chain.moveLinks, List.mem_cons, List.not_mem_nil, or_false]
    rintro link (rfl | rfl | rfl) stop k hk
    · obtain ⟨v, hv, rfl⟩ := Option.map_eq_some_iff.mp hk
      have hvi : v.start = i := by simpa using List.find?_some hv
      exact ⟨Weave.mem_starts.mpr ⟨v, List.mem_of_find?_eq_some hv, rfl⟩,
        Or.inr (hseam _ (Or.inr (Or.inr hvi)))⟩
    · obtain rfl := Option.some.inj hk
      exact ⟨hstart, Or.inr (hseam _ (Or.inl rfl))⟩
    · obtain ⟨hmem, hplace⟩ := hsplit.next u (List.mem_of_find?_eq_some hu) k hk
      refine ⟨hmem, Or.inr ?_⟩
      rcases hplace with rfl | hplace
      · exact hseam _ (Or.inr (Or.inl hstop))
      · exact hplace.of_append
  obtain ⟨hfirst, hnext⟩ := Chain.move_links hmove
  refine ⟨?_, fun r hr => ?_⟩
  · rcases hfirst with he | he
    · change Continues _ w'.starts 0 (some c.first)
      rw [he]
      exact hsplit.first.append _
    · exact hlink _ he 0
  · rcases hnext r.start with he | he
    · change Continues _ w'.starts r.stop (c.next.get r.start)
      rw [he]
      exact (hsplit.next r hr).append _
    · exact hlink _ he r.stop

/-- A path that comes to the inside of a span without seams has come through all of the span from
its start on. -/
theorem exists_run {s : Span} {stop : Option Nat} (h : Threaded moved w)
    (ht : Tiles 0 w.segments text) (hseam : ∀ k, s.Encloses k → ¬ Seam moved k)
    (hstart : s.start ∈ w.starts) (hlead : w.chain.next.Lead (p ++ k :: q) stop)
    (hfrom : ∀ j ∈ (p ++ k :: q).head?, j ∈ w.starts ∧ ¬ s.Encloses j) (hk : s.Encloses k) :
    ∃ p' m, p = p' ++ s.start :: m ∧ ∀ j ∈ m, s.start < j ∧ j < k := by
  obtain ⟨a, ha, has⟩ := Weave.mem_starts.mp hstart
  have hasolid := ht.solid a ha
  induction k using Nat.strongRecOn generalizing p q with
  | _ k ih =>
    rcases hlead.before with rfl | ⟨p, j, rfl, hnext⟩
    · exact absurd hk (hfrom k rfl).2
    · have hj : j ∈ p ++ [j] ++ k :: q := by simp
      obtain ⟨r, hr, rfl⟩ := Weave.mem_starts.mp
        (hlead.subset h.closed (fun b hb => (hfrom b hb).1) hj)
      have hrsolid := ht.solid r hr
      -- No seam leads into the span, so the link is from the segment before in the text.
      have hstop : k = r.stop := ((h.next r hr k hnext).2).resolve_right (hseam k hk)
      obtain ⟨hlo, hhi⟩ : s.start < k ∧ k < s.stop := hk
      have hle : s.start ≤ r.start := by
        by_contra hlt
        obtain rfl := ht.eq_of_meet hr ha (by omega) (by omega)
        omega
      rcases Nat.eq_or_lt_of_le hle with he | hlt
      · exact ⟨p, [], by rw [he], by simp⟩
      · rw [List.append_assoc, List.singleton_append] at hlead hfrom
        obtain ⟨p', m, rfl, hm⟩ := ih r.start (by omega) hlead hfrom ⟨hlt, by omega⟩
        refine ⟨p', m ++ [r.start], by simp, fun j hj => ?_⟩
        rcases List.mem_append.mp hj with hj | hj
        · have := hm j hj
          omega
        · obtain rfl := List.mem_singleton.mp hj
          omega

/-- What a replacement of the span wipes is strictly inside. -/
theorem mem_between {s : Span} (h : Threaded moved w) (ht : Tiles 0 w.segments text)
    (hseam : ∀ k, s.Encloses k → ¬ Seam moved k) (hstart : s.start ∈ w.starts)
    (hb : s.Encloses b) (hbetween : w.between s.start b = some path) (hk : k ∈ path) :
    s.start < k ∧ k < b := by
  obtain ⟨hget, hlead, -, hnot⟩ := Chain.walk_eq_some_iff.mp hbetween
  have hne : ∀ j ∈ s.start :: path, some j ≠ some b := by
    intro j hj he
    obtain rfl := Option.some.inj he
    rcases List.mem_cons.mp hj with rfl | hj
    · exact Nat.lt_irrefl _ hb.1
    · exact hnot j hj rfl
  have hpath : w.chain.next.Lead (s.start :: path) (some b) := ⟨hget, hlead⟩
  have hall : w.chain.next.Lead ((s.start :: path) ++ b :: []) (w.chain.next.get b) :=
    Links.lead_append.mpr ⟨hpath, rfl, trivial⟩
  obtain ⟨p, m, he, hm⟩ := h.exists_run ht hseam hstart hall (fun j hj => by
    obtain rfl := Option.some.inj hj
    exact ⟨hstart, fun henc => Nat.lt_irrefl _ henc.1⟩) hb
  -- The path comes to the start of the span once only.
  cases p with
  | nil =>
    obtain rfl := (List.cons.inj he).2
    exact hm k hk
  | cons j p =>
    obtain ⟨rfl, rfl⟩ := List.cons.inj he
    have hnodup := hpath.nodup hne
    simp at hnodup

theorem exists_shown_of_ends (h : Threaded moved w) (hends : w.Ends) : ∃ l, w.shown = some l := by
  obtain ⟨n, starts, hwalk⟩ := hends
  have hall := Chain.walk_of_ends hwalk h.closed fun b hb => (h.first b hb).1
  rw [Weave.starts, List.length_map] at hall
  exact ⟨_, Option.bind_eq_some_iff.mpr ⟨starts, hall, rfl⟩⟩

/-- What is shown are the segments to which the links lead. -/
theorem shown_eq_some_iff (h : Threaded moved w) (ht : Tiles 0 w.segments text) :
    w.shown = some l ↔ w.chain.Leads (l.map (·.start)) ∧ l ⊆ w.segments := by
  refine ⟨fun hshown => ⟨?_, Weave.shown_subset hshown⟩, fun hl => Weave.shown_eq ht hl.1 hl.2⟩
  obtain ⟨starts, hwalk, hl⟩ := Option.bind_eq_some_iff.mp hshown
  obtain rfl := Option.some.inj hl
  have hleads := Chain.Leads.of_walk hwalk
  have hsub : starts ⊆ w.starts := hleads.next.subset h.closed fun b hb =>
    (h.first b (by rw [hleads.first]; exact hb)).1
  have hstarts : ∀ k ∈ starts,
      ((w.segments.find? fun s => s.start = k).map (·.start)) = some k := by
    intro k hk
    obtain ⟨r, hr, hrk⟩ := Weave.mem_starts.mp (hsub hk)
    rw [ht.find_start hr hrk, Option.map_some, hrk]
  rwa [List.map_filterMap, List.filterMap_congr hstarts, List.filterMap_some]

/-- What is shown of the inside of the span is shown behind its start. -/
theorem shown_behind {s : Span} (h : Threaded moved w) (ht : Tiles 0 w.segments text)
    (hseam : ∀ k, s.Encloses k → ¬ Seam moved k) (hshown : w.shown = some l) (ha : a ∈ w.segments)
    (has : a.start = s.start) (hb : b ∈ l) (hbs : s.Encloses b.start) : [a, b].Sublist l := by
  obtain ⟨hleads, hsub⟩ := (h.shown_eq_some_iff ht).mp hshown
  obtain ⟨p, q, rfl⟩ := List.append_of_mem hb
  rw [List.map_append, List.map_cons] at hleads
  obtain ⟨p', m, hp, -⟩ := h.exists_run ht hseam (Weave.mem_starts.mpr ⟨a, ha, has⟩) hleads.next
    (fun k hk => by
      obtain ⟨hmem, hplace⟩ := h.first k (hleads.first ▸ hk)
      refine ⟨hmem, fun henc => ?_⟩
      rcases hplace with rfl | hplace
      · exact Nat.not_lt_zero _ henc.1
      · exact hseam k henc hplace) hbs
  obtain ⟨r, hr, hrs⟩ : ∃ r ∈ p, r.start = s.start :=
    List.mem_map.mp (hp ▸ List.mem_append_right p' List.mem_cons_self)
  obtain rfl := ht.eq_of_start ha (hsub (List.mem_append_left _ hr)) (has.trans hrs.symm)
  have hhead : [a].Sublist p := List.singleton_sublist.mpr hr
  have htail : [b].Sublist (b :: q) := by simp
  simpa using hhead.append htail

/-- A cut puts the two parts of a segment where the segment is shown. -/
theorem shown_split (h : Threaded moved w) (ht : Tiles 0 w.segments text)
    (hi : Text.isBoundary i text = true) (hshown : w.shown = some l) :
    (w.split i).shown = some (l.flatMap (Segment.cut i)) := by
  obtain ⟨hleads, hsub⟩ := (h.shown_eq_some_iff ht).mp hshown
  rcases ht.split_cases hi with ⟨hclear, he⟩ | ⟨p, q, s, a, b, hcut⟩
  · rw [he, Segment.flatMap_cut_of_not_straddles fun r hr => hclear r (hsub hr)]
    exact hshown
  have hfresh : i ∉ l.map (·.start) := fun hm => by
    obtain ⟨r, hr, hri⟩ := List.mem_map.mp hm
    exact hcut.notMem_starts (Weave.mem_starts.mpr ⟨r, hsub hr, hri⟩)
  refine ((h.split ht hi).shown_eq_some_iff (ht.split hi)).mpr ⟨?_, ?_⟩
  · rw [hcut.split_eq]
    by_cases hs : s ∈ l
    · obtain ⟨x, y, rfl⟩ := List.append_of_mem hs
      have hne : ∀ r ∈ x ++ y, r ≠ s := by
        rintro r hr rfl
        have hnodup := List.perm_middle.nodup_iff.mp (List.Nodup.of_map _ hleads.nodup)
        exact (List.nodup_cons.mp hnodup).1 hr
      have hstay : ∀ r ∈ x ++ y, r.straddles i = false := fun r hr =>
        hcut.not_straddles (hsub (mem_of_mem_others (m := [s]) hr)) (hne r hr)
      rw [List.flatMap_append, List.flatMap_cons, hcut.cut_eq,
        Segment.flatMap_cut_of_not_straddles fun r hr => hstay r (by simp [hr]),
        Segment.flatMap_cut_of_not_straddles fun r hr => hstay r (by simp [hr])]
      rw [List.map_append, List.map_cons, List.append_cons] at hleads hfresh
      have hins := hleads.insertAfter (a := s.start) (by simp) hfresh
      simpa [hcut.first.1, hcut.second.1] using hins
    · have hne : ∀ r ∈ l, r ≠ s := fun r hr he => hs (he ▸ hr)
      have hout : s.start ∉ l.map (·.start) := fun hm => by
        obtain ⟨r, hr, hrs⟩ := List.mem_map.mp hm
        exact hne r hr (ht.eq_of_start (hsub hr) hcut.mem hrs)
      rw [Segment.flatMap_cut_of_not_straddles fun r hr =>
        hcut.not_straddles (hsub hr) (hne r hr)]
      exact hleads.insertAfter_of_notMem hout hfresh
  · rw [Weave.split_segments]
    intro r hr
    obtain ⟨u, hu, hur⟩ := List.mem_flatMap.mp hr
    exact List.mem_flatMap.mpr ⟨u, hsub hu, hur⟩

end Threaded

/-- Whatever edits are accepted, the links follow the text, except where moves tear it. -/
theorem Accepted.threaded (run : Accepted text edits o) (htext : text ≠ []) :
    Threaded (moves edits) o.weave := by
  induction run with
  | start => exact .ofText text
  | @step edits o e w run allowed made ih =>
    have htiles := run.tiles htext
    rw [moves_append]
    rcases e.kinds with ⟨s, c, he, hm, -⟩ | ⟨s, i, he, -, -⟩ | ⟨side, place, i, content, rfl⟩ |
        ⟨-, hm, -, hw⟩
    · obtain ⟨hin, -, -⟩ := run.allows_replacement allowed he
      obtain ⟨f, hf, hprops⟩ := o.weave.apply_of_replacement he
      exact (ih.replace htiles hin (fun r => ⟨(hprops r).1, (hprops r).2.1⟩)
        (hf.symm.trans made)).append _
    · obtain ⟨hin, hs, htarget, -⟩ := run.allows_move allowed he
      have hmoves : moves [e] = [(s, i)] := by simp [moves, he]
      rw [hmoves]
      exact ih.relocate htiles hin hs htarget.2.1 ((o.weave.apply_of_move he).symm.trans made)
    · obtain rfl := Option.some.inj made
      exact (ih.insert htiles allowed.1.2.1 side place content).append _
    · rw [hw] at made
      obtain rfl := Option.some.inj made
      exact ih.append _

/-- Nothing is shown only if the links lead in a circle. -/
theorem Accepted.exists_shown_of_ends (run : Accepted text edits o) (hends : o.weave.Ends) :
    ∃ l, o.weave.shown = some l := by
  by_cases htext : text = []
  · subst htext
    exact ⟨_, run.shown_of_nil⟩
  · exact (run.threaded htext).exists_shown_of_ends hends

end GadgetBuild.Overlay
