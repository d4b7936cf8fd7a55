import GadgetBuild.Proofs.Overlay.Layout

/-!
What each edit does to an arrangement and to a layout. By that, runs of edits without a move to
where a span stands lead to the order in which they put the bytes, and tidy runs to the layout that
the edits describe.
-/

namespace GadgetBuild.Overlay

namespace Arranged

variable {text : Text} {moved : List (Span × Nat)} {named order : List Nat} {w : Weave}
  {l : List Segment}

theorem insert (h : Arranged text moved named order w l) (side : Side) (place : Place)
    (content : Text) (hi : Text.isBoundary i text = true) :
    ∃ l', Arranged text moved (named ++ [i]) order (w.insert side place i content) l' := by
  cases side with
  | left =>
    rw [Weave.insert]
    split
    · rename_i hzero
      exact ⟨l, (h.name (Or.inl hzero)).congr rfl rfl⟩
    · exact (h.split hi).modify _ fun _ => ⟨rfl, rfl⟩
  | right =>
    rw [Weave.insert]
    split
    · rename_i hend
      exact ⟨l, (h.name (Or.inr (hend.trans h.shows.size_eq))).congr rfl rfl⟩
    · exact (h.split hi).modify _ fun _ => ⟨rfl, rfl⟩

/-- The cuts at the ends of a span. -/
theorem split_span {s : Span} (h : Arranged text moved named order w l)
    (hin : History.InText text s) :
    ∃ l', Arranged text moved (named ++ [s.start, s.stop]) order
      ((w.split s.start).split s.stop) l' := by
  have hsplit := (h.split hin.2.1).split hin.2.2
  rw [List.append_assoc] at hsplit
  exact ⟨_, hsplit⟩

/-- The cuts that a move makes. -/
theorem split_move {s : Span} (h : Arranged text moved named order w l)
    (hin : History.InText text s) (hi : Text.isBoundary i text = true) :
    ∃ l', Arranged text moved (named ++ [s.start, s.stop, i]) order
      (((w.split s.start).split s.stop).split i) l' := by
  obtain ⟨l', h'⟩ := h.split_span hin
  have hsplit := h'.split hi
  rw [List.append_assoc] at hsplit
  exact ⟨_, hsplit⟩

/-- A replacement leaves all segments where they are. -/
theorem replace {s : Span} (h : Arranged text moved named order w l)
    (hin : History.InText text s) (hf : ∀ r, (f r).start = r.start ∧ (f r).text = r.text)
    (hw : w.replace s f = some w') :
    ∃ l', Arranged text moved (named ++ [s.start, s.stop]) order w' l' := by
  obtain ⟨b, inner, -, -, rfl⟩ := Weave.replace_eq_some_iff.mp hw
  obtain ⟨l₁, h₁⟩ := h.split_span hin
  obtain ⟨l₂, h₂⟩ := h₁.modify _ hf
  exact h₂.modify _ fun _ => ⟨rfl, rfl⟩

/-- Where the segments behind a run begin: at the run's end, or at a seam. -/
theorem behind_run (h : Arranged text moved named order w (p ++ (run ++ q)))
    (hrun : Run s run first last) (hq : q.head? = some v) :
    v.start = s.stop ∨ Seam moved v.start := by
  obtain ⟨q, rfl⟩ := List.head?_eq_some_iff.mp hq
  obtain ⟨m, rfl⟩ := List.getLast?_eq_some_iff.mp hrun.last_eq
  have hjoined : Joined moved 0 ((p ++ m ++ [last]) ++ v :: q) := by simpa using h.joined
  rcases hjoined.before with hs | ⟨hnil, _⟩ | ⟨p', r, he, hr⟩
  · exact Or.inr hs
  · simp at hnil
  · obtain ⟨_, hlast⟩ := List.append_inj' he rfl
    rw [← hr, ← (List.cons.inj hlast).1, hrun.stop_eq]
    exact Or.inl rfl

/-- The segments that are not moved, cut where the target is. -/
theorem exists_target (h : Arranged text moved named order w (p ++ (run ++ q)))
    (hrun : Run s run first last) (hout : ¬ s.Has i) (hi : i ≤ text.size) (hnamed : i ∈ named) :
    ∃ x y, p ++ q = x ++ y ∧ i ∉ x.flatMap Segment.bytes ∧
      (∀ v, y.head? = some v → v.start = i) ∧ (y = [] → i = text.size) := by
  by_cases hend : i = text.size
  · refine ⟨p ++ q, [], by simp, fun hin => ?_, by simp, fun _ => hend⟩
    have horder : i ∈ order := by
      rw [← h.order]
      simp only [List.flatMap_append, List.mem_append] at hin ⊢
      exact hin.imp_right Or.inr
    have := h.lt_size horder
    omega
  · obtain ⟨v, hv, hvi⟩ := h.shows.tiles.exists_start
      (fun r hr => h.clear i hnamed r (h.shows.mem.mpr hr)) (Nat.zero_le i) (by omega)
    have hvl := h.shows.mem.mpr hv
    have hhas : i ∈ v.bytes := by
      obtain ⟨bytes, hbytes⟩ := v.exists_bytes (h.shows.tiles.solid v hv)
      simp [hbytes, hvi]
    have hvpq : v ∈ p ++ q := by
      simp only [List.mem_append] at hvl ⊢
      rcases hvl with hv | hv | hv
      · exact Or.inl hv
      · exact absurd (hrun.has_iff.mp (List.mem_flatMap.mpr ⟨v, hv, hhas⟩)) hout
      · exact Or.inr hv
    obtain ⟨x, y, hxy⟩ := List.append_of_mem hvpq
    refine ⟨x, v :: y, hxy, fun hin => ?_, fun u hu => Option.some.inj hu ▸ hvi, by simp⟩
    obtain ⟨u, hu, hui⟩ := List.mem_flatMap.mp hin
    have hul : u ∈ p ++ (run ++ q) := mem_of_mem_others (by simp [hxy, hu])
    have huv := h.shows.eq_of_has hul hvl (Segment.mem_bytes.mp hui) (Segment.mem_bytes.mp hhas)
    have hnodup : (p ++ (run ++ q)).Nodup := .of_map _ h.shows.order.nodup
    have hnodup' : (p ++ q).Nodup :=
      hnodup.sublist (List.Sublist.append_left (List.sublist_append_right run q) p)
    rw [hxy, List.nodup_append'] at hnodup'
    exact hnodup'.2.2 hu (huv ▸ List.mem_cons_self)

section Relocate

variable {s : Span} {p run q x y : List Segment} {first last : Segment}

/-- What is shown after a move of a run that does not stand before its target. -/
theorem shows_relocate
    (h : Arranged text moved named order (((w.split s.start).split s.stop).split i)
      (p ++ (run ++ q)))
    (hrun : Run s run first last) (hxy : p ++ q = x ++ y)
    (hy : ∀ v, y.head? = some v → v.start = i) (hend : y = [] → i = text.size)
    (hnot : ∀ v, q.head? = some v → v.start ≠ i) :
    ∃ w', w.relocate s i = some w' ∧ w'.Shows text (x ++ (run ++ y)) := by
  -- A target right behind the run is the end of the text.
  have hstay : p = x → q = y →
      ∃ w', w.relocate s i = some w' ∧ w'.Shows text (x ++ (run ++ y)) := by
    rintro rfl rfl
    cases q with
    | nil =>
      have hlast := h.shows
      rw [List.append_nil] at hlast ⊢
      exact hlast.relocate_last hrun.last_eq hrun.stop_eq (hend rfl)
    | cons v q => exact absurd (hy v rfl) (hnot v rfl)
  rcases List.append_eq_append_iff.mp hxy with ⟨m, rfl, rfl⟩ | ⟨m, rfl, rfl⟩
  · cases m with
    | nil => exact hstay (by simp) (by simp)
    | cons v m =>
      rw [List.append_assoc]
      exact h.shows.relocate_back hrun.head_eq hrun.start_eq hrun.last_eq hrun.stop_eq (by simp)
        hy hend
  · cases m with
    | nil => exact hstay (by simp) (by simp)
    | cons v m =>
      have hforth := h.shows
      rw [List.append_assoc] at hforth
      exact hforth.relocate_forth hrun.head_eq hrun.start_eq hrun.last_eq hrun.stop_eq rfl
        (hy v rfl)

/-- The move tears the text at the ends of its span and at its target only. -/
theorem joined_relocate (h : Arranged text moved named order w (p ++ (run ++ q)))
    (hrun : Run s run first last) (hxy : p ++ q = x ++ y)
    (hy : ∀ v, y.head? = some v → v.start = i) :
    Joined (moved ++ [(s, i)]) 0 (x ++ (run ++ y)) := by
  have hseams : ∀ k, k = s.start ∨ k = s.stop ∨ k = i → Seam (moved ++ [(s, i)]) k :=
    fun k hk => ⟨(s, i), by simp, hk⟩
  obtain ⟨hp, _, hrest⟩ := h.joined.of_append
  obtain ⟨hmid, _, hq⟩ := hrest.of_append
  have hpq : Joined (moved ++ [(s, i)]) 0 (p ++ q) := by
    apply hp.mono.append hq.mono
    intro v hv
    rcases h.behind_run hrun hv with hstop | hold
    · exact hseams _ (Or.inr (Or.inl hstop))
    · exact hold.of_append
  rw [hxy] at hpq
  obtain ⟨hx, _, hy'⟩ := hpq.of_append
  refine hx.append (hmid.mono.append hy' fun v hv => ?_) fun v hv => ?_
  · exact hseams _ (Or.inr (Or.inr (hy v hv)))
  · rw [List.head?_append, hrun.head_eq] at hv
    exact hseams _ (Or.inl (Option.some.inj hv ▸ hrun.start_eq))

theorem bytes_relocate (he : Edit.move? e = some (s, i))
    (h : Arranged text moved named order w (p ++ (run ++ q)))
    (hrun : Run s run first last) (hxy : p ++ q = x ++ y) (hx : i ∉ x.flatMap Segment.bytes)
    (hy : ∀ v, y.head? = some v → v.start = i) :
    (x ++ (run ++ y)).flatMap Segment.bytes = e.arrange order := by
  have hothers := hrun.others h
  simp only [List.flatMap_append, List.mem_append] at hothers
  rw [← h.order]
  simp only [List.flatMap_append]
  refine (Edit.arrange_eq he (fun k hk => hrun.has_iff.mp hk) (fun k hk => hothers k (Or.inl hk))
    (fun k hk => hothers k (Or.inr hk)) ?_ hx ?_).symm
  · rw [← List.flatMap_append, hxy, List.flatMap_append]
  · intro k hk
    cases y with
    | nil => cases hk
    | cons v y =>
      have hv : v ∈ p ++ (run ++ q) := mem_of_mem_others (by simp [hxy])
      obtain ⟨bytes, hbytes⟩ := v.exists_bytes (h.shows.tiles.solid v (h.shows.mem.mp hv))
      rw [List.flatMap_cons, hbytes] at hk
      rw [← Option.some.inj hk]
      exact hy v rfl

/-- A moved span that does not stand before its target goes there. -/
theorem relocate (he : Edit.move? e = some (s, i))
    (h : Arranged text moved named order (((w.split s.start).split s.stop).split i) l)
    (hs : s.start < s.stop) (hin : s.stop ≤ text.size) (hi : i ≤ text.size)
    (hout : ¬ s.Has i) (hstart : s.start ∈ named) (hstop : s.stop ∈ named)
    (hnamed : i ∈ named) (hseam : ∀ k, s.start < k → k < s.stop → ¬ Seam moved k)
    (hplace : ¬ [s.stop - 1, i] <:+: order) :
    ∃ w' l', w.relocate s i = some w' ∧
      Arranged text (moved ++ [(s, i)]) named (e.arrange order) w' l' ∧ l'.Perm l := by
  obtain ⟨p, run, q, first, last, rfl, hrun⟩ := h.exists_run hs hin hseam hstart hstop
  obtain ⟨x, y, hxy, hx, hy, hend⟩ := h.exists_target hrun hout hi hnamed
  have hnot : ∀ v, q.head? = some v → v.start ≠ i := fun v hv hvi =>
    hplace ((hrun.infix_iff hs h).mpr ⟨v, hv, hvi⟩)
  have hperm : (x ++ (run ++ y)).Perm (p ++ (run ++ q)) := by
    refine (List.perm_append_comm_assoc x run y).trans ?_
    rw [← hxy]
    exact (List.perm_append_comm_assoc p run q).symm
  obtain ⟨w', hw, hshows⟩ := h.shows_relocate hrun hxy hy hend hnot
  exact ⟨w', _, hw, h.rearrange hshows hperm (h.joined_relocate hrun hxy hy)
    (h.bytes_relocate he hrun hxy hx hy), hperm⟩

/-- One that stands there already is moved as well. -/
theorem relocate_in_place
    (h : Arranged text moved named order (((w.split s.start).split s.stop).split i) l)
    (hs : s.start < s.stop) (hin : s.stop ≤ text.size) (hstart : s.start ∈ named)
    (hstop : s.stop ∈ named) (hseam : ∀ k, s.start < k → k < s.stop → ¬ Seam moved k)
    (hplace : [s.stop - 1, i] <:+: order) :
    ∃ p run q first last, l = p ++ (run ++ q) ∧ Run s run first last ∧
      ∃ w', w.relocate s i = some w' ∧ w'.shown = some (if p = [] then run ++ q else p ++ q) := by
  obtain ⟨p, run, q, first, last, rfl, hrun⟩ := h.exists_run hs hin hseam hstart hstop
  obtain ⟨v, hq, hvi⟩ := (hrun.infix_iff hs h).mp hplace
  exact ⟨p, run, q, first, last, rfl, hrun, h.shows.relocate_in_place hrun.head_eq hrun.start_eq
    hrun.last_eq hrun.stop_eq hq hvi⟩

end Relocate

end Arranged

namespace Layout

variable {text : Text} {replaced : List (Span × Text)} {moved : List (Span × Nat)}
  {named order : List Nat} {w : Weave} {l : List Segment}

/-- A text is inserted where no replaced span is. -/
theorem insert (h : Layout text replaced moved named order w l) (side : Side) (place : Place)
    (content : Text) (hi : Text.isBoundary i text = true)
    (hfree : ∀ r ∈ replaced, ¬ r.1.Meets i i) :
    ∃ l', Layout text replaced moved (named ++ [i]) order (w.insert side place i content) l' := by
  have hsplit := h.split hi hfree
  have hadorn : ∀ (which : Segment → Bool) (f : Segment → Segment),
      (∀ s, (f s).start = s.start ∧ (f s).text = s.text ∧ (f s).content = s.content) →
      ∃ l', Layout text replaced moved (named ++ [i]) order ((w.split i).modify which f) l' := by
    intro which f hf
    refine ⟨_, hsplit.adorn (hsplit.shows.modify which fun s => ⟨(hf s).1, (hf s).2.1⟩) fun s => ?_⟩
    split
    · exact hf s
    · exact ⟨rfl, rfl, rfl⟩
  cases side with
  | left =>
    rw [Weave.insert]
    split
    · rename_i hzero
      exact ⟨l, (h.name (Or.inl hzero)).congr rfl rfl⟩
    · exact hadorn _ _ fun _ => ⟨rfl, rfl, rfl⟩
  | right =>
    rw [Weave.insert]
    split
    · rename_i hend
      exact ⟨l, (h.name (Or.inr (hend.trans h.shows.size_eq))).congr rfl rfl⟩
    · exact hadorn _ _ fun _ => ⟨rfl, rfl, rfl⟩

/-- The cuts at the ends of a span. -/
theorem split_span {s : Span} (h : Layout text replaced moved named order w l)
    (hin : History.InText text s)
    (hfree : ∀ r ∈ replaced, ¬ r.1.Meets s.start s.start ∧ ¬ r.1.Meets s.stop s.stop) :
    ∃ l', Layout text replaced moved (named ++ [s.start, s.stop]) order
      ((w.split s.start).split s.stop) l' := by
  have hsplit := (h.split hin.2.1 fun r hr => (hfree r hr).1).split hin.2.2
    fun r hr => (hfree r hr).2
  rw [List.append_assoc] at hsplit
  exact ⟨_, hsplit⟩

/-- A span is a single segment if no offset inside was named. -/
theorem exists_segment {s : Span} (h : Layout text replaced moved named order w l)
    (hs : s.start < s.stop) (hin : s.stop ≤ text.size) (hstart : s.start ∈ named)
    (hstop : s.stop ∈ named) (hclean : ∀ k ∈ named, ¬ (s.start < k ∧ k < s.stop)) :
    ∃ p u q, l = p ++ u :: q ∧ u.span = s := by
  have hclear : ∀ k ∈ named, ∀ r ∈ w.segments, r.straddles k = false := fun k hk r hr =>
    h.clear k hk r (h.shows.mem.mpr hr)
  obtain ⟨u, hu, hus⟩ :=
    h.shows.tiles.exists_start (hclear s.start hstart) (Nat.zero_le _) (by omega)
  obtain ⟨v, hv, hvs⟩ := h.shows.tiles.exists_stop (hclear s.stop hstop) (by omega) (by omega)
  have hsolid := h.shows.tiles.solid v hv
  have hvstart := Segment.not_straddles_iff.mp (hclear s.start hstart v hv)
  have hbetween : ¬ s.start < v.start := by
    intro hlt
    rcases h.starts v (h.shows.mem.mpr hv) with hzero | hnamed
    · omega
    · exact hclean v.start hnamed ⟨hlt, by omega⟩
  obtain rfl := h.shows.tiles.eq_of_start hu hv (by omega)
  obtain ⟨p, q, rfl⟩ := List.append_of_mem (h.shows.mem.mpr hu)
  refine ⟨p, u, q, rfl, ?_⟩
  rw [Segment.span, hus, hvs]

/-- The cuts at its ends make a span one segment if no offset inside was named before. -/
theorem split_segment {s : Span} (h : Layout text replaced moved named order w l)
    (hin : History.InText text s) (hs : s.start < s.stop)
    (hfree : ∀ r ∈ replaced, ¬ r.1.Meets s.start s.stop)
    (hclean : ∀ k ∈ named, ¬ (s.start < k ∧ k < s.stop)) :
    ∃ p u q, Layout text replaced moved (named ++ [s.start, s.stop]) order
      ((w.split s.start).split s.stop) (p ++ u :: q) ∧ u.span = s := by
  obtain ⟨l', h'⟩ := h.split_span hin fun r hr => Span.not_meets_ends (hfree r hr) hs
  obtain ⟨p, u, q, rfl, hu⟩ := h'.exists_segment hs (Text.isBoundary_le hin.2.2) (by simp) (by simp)
    fun k hk => by
      rcases List.mem_append.mp hk with hk | hk
      · exact hclean k hk
      · simp only [List.mem_cons, List.not_mem_nil, or_false] at hk
        omega
  exact ⟨p, u, q, h', hu⟩

/-- A span is replaced in which no offset was named before. -/
theorem replace_span {s : Span} (h : Layout text replaced moved named order w l)
    (hin : History.InText text s) (hs : s.start < s.stop)
    (hf : ∀ r, (f r).start = r.start ∧ (f r).text = r.text ∧ (f r).content = some content)
    (hfree : ∀ r ∈ replaced, ¬ r.1.Meets s.start s.stop)
    (hclean : ∀ k ∈ named, ¬ (s.start < k ∧ k < s.stop)) (hw : w.replace s f = some w') :
    ∃ l', Layout text (replaced ++ [(s, content)]) moved (named ++ [s.start, s.stop]) order
      w' l' := by
  obtain ⟨p, u, q, h', hu⟩ := h.split_segment hin hs hfree hclean
  have hnone : u.content = none := by
    apply h'.content_eq_none (by simp) hfree
    rw [hu]
    exact ⟨hs, hs⟩
  obtain ⟨w'', hw', hshows⟩ := h'.shows.replace_one (fun r => ⟨(hf r).1, (hf r).2.1⟩)
    (congrArg Span.start hu) (congrArg Span.stop hu)
  obtain rfl := Option.some.inj (hw.symm.trans hw')
  have := h'.replace hshows (hf u).1 (hf u).2.1 hnone (hf u).2.2
  rw [hu] at this
  exact ⟨_, this⟩

end Layout

/-- What an edit is: it replaces a span, moves one, inserts a text or does nothing. -/
theorem Edit.kinds (e : Edit) :
    (∃ s c, e.replacement? = some (s, c) ∧ e.move? = none ∧ e.offsets = [s.start, s.stop]) ∨
    (∃ s i, e.move? = some (s, i) ∧ e.replacement? = none ∧ e.offsets = [s.start, s.stop, i]) ∨
    (∃ side place i content, e = .insert side place i content) ∨
    (e.replacement? = none ∧ e.move? = none ∧ e.offsets = [] ∧
      ∀ w : Weave, w.apply e = some w) := by
  cases e with
  | insert side place i content => exact Or.inr (Or.inr (Or.inl ⟨_, _, _, _, rfl⟩))
  | update s content =>
    by_cases hs : s.start = s.stop
    · exact Or.inr (Or.inr (Or.inr (by simp [replacement?, move?, offsets, Weave.apply, hs])))
    · exact Or.inl ⟨s, content, by simp [replacement?, move?, offsets, hs]⟩
  | remove s =>
    by_cases hs : s.start = s.stop
    · exact Or.inr (Or.inr (Or.inr (by simp [replacement?, move?, offsets, Weave.apply, hs])))
    · exact Or.inl ⟨s, [], by simp [replacement?, move?, offsets, hs]⟩
  | relocate s i =>
    by_cases hs : s.start = s.stop
    · exact Or.inr (Or.inr (Or.inr (by simp [replacement?, move?, offsets, Weave.apply, hs])))
    · exact Or.inr (Or.inl ⟨s, i, by simp [replacement?, move?, offsets, hs]⟩)

theorem Weave.apply_of_replacement {content : Text} (w : Weave)
    (he : Edit.replacement? e = some (s, content)) :
    ∃ f, w.apply e = w.replace s f ∧
      ∀ r, (f r).start = r.start ∧ (f r).text = r.text ∧ (f r).content = some content := by
  obtain ⟨hne, rfl | ⟨rfl, rfl⟩⟩ := Edit.replacement?_eq_some_iff.mp he
  · exact ⟨_, if_neg hne, fun r => ⟨rfl, rfl, rfl⟩⟩
  · exact ⟨_, if_neg hne, fun r => ⟨rfl, rfl, rfl⟩⟩

theorem Weave.apply_of_move (w : Weave) (he : Edit.move? e = some (s, i)) :
    w.apply e = w.relocate s i := by
  obtain ⟨hne, rfl⟩ := Edit.move?_eq_some_iff.mp he
  exact if_neg hne

variable {text : Text}

/-- No move of the run takes a span to where it stands. -/
def Shifts (text : Text) (edits : List Edit) : Prop :=
  ∀ init e rest, edits = init ++ e :: rest → ¬ InPlace text init e

theorem Shifts.append_left (h : Shifts text (first ++ next)) : Shifts text first := by
  intro init e rest he
  exact h init e (rest ++ next) (by simp [he])

theorem Tidy.shifts (h : Tidy text edits) : Shifts text edits :=
  fun init e rest he => (h init e rest he).2

namespace Accepted

/-- No move tears a span that may be moved. -/
theorem seamless_move (run : Accepted text edits o) (allowed : o.history.Allows text e)
    (hun : Unnested (edits ++ [e])) (he : Edit.move? e = some (s, i)) :
    ∀ k, s.start < k → k < s.stop → ¬ Seam (moves edits) k := by
  obtain ⟨-, -, -, -, -, hclear⟩ := run.allows_move allowed he
  rintro k hlo hhi ⟨m, hm, hk⟩
  have hsolid := run.apart.moved.solid m.1 (run.mem_moved.mpr ⟨m.2, hm⟩)
  have hnot := hclear m hm
  have hnest := hun (s, i) (by simp [mem_moves_singleton, he]) m (by simp [hm])
  unfold Span.Meets at hnot
  dsimp only at hnest
  omega

theorem arranged_step (run : Accepted text edits o) (allowed : o.history.Allows text e)
    (made : o.weave.apply e = some w) (hun : Unnested (edits ++ [e]))
    (hplace : ¬ InPlace text edits e)
    (h : Arranged text (moves edits) (offsets edits) (arrangement text edits) o.weave l) :
    ∃ l', Arranged text (moves (edits ++ [e])) (offsets (edits ++ [e]))
      (arrangement text (edits ++ [e])) w l' := by
  rw [moves_append, offsets_append, offsets_singleton, arrangement_concat]
  rcases e.kinds with ⟨s, c, he, hm, ho⟩ | ⟨s, i, he, -, ho⟩ | ⟨side, place, i, content, rfl⟩ |
      ⟨-, hm, ho, hw⟩
  · obtain ⟨hin, -, -⟩ := run.allows_replacement allowed he
    obtain ⟨f, hf, hprops⟩ := o.weave.apply_of_replacement he
    have hstep := h.replace hin (fun r => ⟨(hprops r).1, (hprops r).2.1⟩) (hf.symm.trans made)
    simpa [ho, moves, Edit.arrange, hm] using hstep
  · obtain ⟨hin, hs, htarget, hout, -⟩ := run.allows_move allowed he
    obtain ⟨l', h'⟩ := h.split_move hin htarget.2.1
    obtain ⟨w', l'', hw, hstep, -⟩ := h'.relocate he hs (Text.isBoundary_le hin.2.2)
      (Text.isBoundary_le htarget.2.1) (fun hhas => hout ⟨hhas.1, Nat.le_of_lt hhas.2⟩) (by simp)
      (by simp) (by simp) (run.seamless_move allowed hun he) fun hfix => hplace ⟨_, he, hfix⟩
    rw [o.weave.apply_of_move he, hw] at made
    obtain rfl := Option.some.inj made
    exact ⟨l'', by simpa [ho, moves, he] using hstep⟩
  · obtain rfl := Option.some.inj made
    have hnone : moves [.insert side place i content] = [] := rfl
    rw [hnone, List.append_nil]
    exact h.insert side place content allowed.1.2.1
  · rw [hw] at made
    obtain rfl := Option.some.inj made
    exact ⟨l, by simpa [ho, moves, Edit.arrange, hm] using h⟩

/-- A run without moves in place leaves the bytes in the order in which it puts them. -/
theorem arranged (htext : text ≠ []) (run : Accepted text edits o) (hun : Unnested edits)
    (hshifts : Shifts text edits) :
    ∃ l, Arranged text (moves edits) (offsets edits) (arrangement text edits) o.weave l := by
  induction run with
  | start => exact ⟨_, .ofText htext⟩
  | @step edits o e w run allowed made ih =>
    obtain ⟨l, h⟩ := ih hun.append_left hshifts.append_left
    exact run.arranged_step allowed made hun (hshifts edits e [] rfl) h

/-- The cuts that a move makes in a layout. -/
theorem split_move (run : Accepted text edits o) (allowed : o.history.Allows text e)
    (he : Edit.move? e = some (s, i))
    (h : Layout text (replacements edits) (moves edits) named order o.weave l) :
    ∃ l', Layout text (replacements edits) (moves edits) (named ++ [s.start, s.stop, i]) order
      (((o.weave.split s.start).split s.stop).split i) l' := by
  obtain ⟨hin, -, htarget, -, hfree, -⟩ := run.allows_move allowed he
  obtain ⟨l', h'⟩ := h.split_span hin fun r hr => ⟨(hfree r hr).1, (hfree r hr).2.1⟩
  have hsplit := h'.split htarget.2.1 fun r hr => (hfree r hr).2.2
  rw [List.append_assoc] at hsplit
  exact ⟨_, hsplit⟩

/-- A tidy edit leaves the layout that it describes. -/
theorem layout_step (run : Accepted text edits o) (allowed : o.history.Allows text e)
    (made : o.weave.apply e = some w) (hun : Unnested (edits ++ [e])) (hover : ¬ Overruns edits e)
    (hplace : ¬ InPlace text edits e)
    (h : Layout text (replacements edits) (moves edits) (offsets edits) (arrangement text edits)
      o.weave l) :
    ∃ l', Layout text (replacements (edits ++ [e])) (moves (edits ++ [e])) (offsets (edits ++ [e]))
      (arrangement text (edits ++ [e])) w l' := by
  rw [replacements_append, moves_append, offsets_append, offsets_singleton, arrangement_concat]
  rcases e.kinds with ⟨s, c, he, hm, ho⟩ | ⟨s, i, he, hr, ho⟩ | ⟨side, place, i, content, rfl⟩ |
      ⟨hr, hm, ho, hw⟩
  · obtain ⟨hin, hs, hfree⟩ := run.allows_replacement allowed he
    obtain ⟨f, hf, hprops⟩ := o.weave.apply_of_replacement he
    have hstep := h.replace_span hin hs hprops hfree (fun k hk hk' => hover ⟨_, he, k, hk, hk'⟩)
      (hf.symm.trans made)
    simpa [ho, replacements, moves, Edit.arrange, he, hm] using hstep
  · obtain ⟨hin, hs, htarget, hout, _⟩ := run.allows_move allowed he
    obtain ⟨l', h'⟩ := run.split_move allowed he h
    obtain ⟨w', l'', hw, hstep, hperm⟩ := h'.relocate he hs (Text.isBoundary_le hin.2.2)
      (Text.isBoundary_le htarget.2.1) (fun hhas => hout ⟨hhas.1, Nat.le_of_lt hhas.2⟩) (by simp)
      (by simp) (by simp) (run.seamless_move allowed hun he) fun hfix => hplace ⟨_, he, hfix⟩
    rw [o.weave.apply_of_move he, hw] at made
    obtain rfl := Option.some.inj made
    exact ⟨l'', by simpa [ho, replacements, moves, he, hr] using h'.rearrange hstep hperm⟩
  · obtain rfl := Option.some.inj made
    have hstep := h.insert side place content allowed.1.2.1
      fun r hr => allowed.2 r.1 (run.mem_edited.mpr ⟨r.2, hr⟩)
    have hnone : replacements [.insert side place i content] = [] ∧
        moves [.insert side place i content] = [] := ⟨rfl, rfl⟩
    rw [hnone.1, hnone.2, List.append_nil, List.append_nil]
    exact hstep
  · rw [hw] at made
    obtain rfl := Option.some.inj made
    exact ⟨l, by simpa [ho, replacements, moves, Edit.arrange, hr, hm] using h⟩

/-- A tidy run leads to the layout that its edits describe. -/
theorem layout (htext : text ≠ []) (run : Accepted text edits o) (hun : Unnested edits)
    (htidy : Tidy text edits) :
    ∃ l, Layout text (replacements edits) (moves edits) (offsets edits) (arrangement text edits)
      o.weave l := by
  induction run with
  | start => exact ⟨_, .ofText htext⟩
  | step run allowed made ih =>
    obtain ⟨l, h⟩ := ih hun.append_left htidy.append_left
    exact run.layout_step allowed made hun htidy.last.1 htidy.last.2 h

/-- Whatever edits are made, the segments tile the text. -/
theorem tiles (run : Accepted text edits o) (htext : text ≠ []) :
    Tiles 0 o.weave.segments text := by
  induction run with
  | start => exact (Weave.Shows.ofText htext).tiles
  | @step edits o e w run allowed made ih =>
    rcases e.kinds with ⟨s, c, he, -, -⟩ | ⟨s, i, he, -, -⟩ | ⟨side, place, i, content, rfl⟩ |
        ⟨-, -, -, hw⟩
    · obtain ⟨hin, -, -⟩ := run.allows_replacement allowed he
      obtain ⟨f, hf, hprops⟩ := o.weave.apply_of_replacement he
      exact ih.replace hin.2.1 hin.2.2 (fun r => ⟨(hprops r).1, (hprops r).2.1⟩)
        (hf.symm.trans made)
    · obtain ⟨hin, -, htarget, -⟩ := run.allows_move allowed he
      exact ih.relocate hin.2.1 hin.2.2 htarget.2.1 ((o.weave.apply_of_move he).symm.trans made)
    · obtain rfl := Option.some.inj made
      exact ih.insert allowed.1.2.1 side place content
    · rw [hw] at made
      obtain rfl := Option.some.inj made
      exact ih

/-- The only edits of an empty text that do anything insert at its only offset. -/
theorem kinds_of_nil (run : Accepted [] edits o) (allowed : o.history.Allows [] e) :
    e.replacement? = none ∧ e.move? = none ∧
      ((∃ side place content, e = .insert side place 0 content) ∨
        ∀ w : Weave, w.apply e = some w) := by
  have hempty : ∀ s, History.InText [] s → ¬ s.start < s.stop := by
    intro s hin
    have := Text.isBoundary_le hin.2.2
    rw [Text.size_nil] at this
    omega
  rcases e.kinds with ⟨s, c, he, -, -⟩ | ⟨s, i, he, -, -⟩ | ⟨side, place, i, content, rfl⟩ |
      ⟨hr, hm, -, hw⟩
  · obtain ⟨hin, hs, -⟩ := run.allows_replacement allowed he
    exact absurd hs (hempty s hin)
  · obtain ⟨hin, hs, -⟩ := run.allows_move allowed he
    exact absurd hs (hempty s hin)
  · obtain rfl : i = 0 := Nat.le_zero.mp (Text.isBoundary_le allowed.1.2.1)
    exact ⟨rfl, rfl, Or.inl ⟨side, place, content, rfl⟩⟩
  · exact ⟨hr, hm, Or.inr hw⟩

/-- An empty text stays one segment. -/
theorem weave_of_nil (run : Accepted [] edits o) :
    o.weave.segments = [⟨0, [], [], none, []⟩] ∧ o.weave.chain = .single 0 := by
  induction run with
  | start => exact ⟨rfl, rfl⟩
  | @step edits o e w run allowed made ih =>
    obtain ⟨-, -, ⟨side, place, content, rfl⟩ | hw⟩ := run.kinds_of_nil allowed
    · have hsize : o.weave.size = 0 := by simp [Weave.size, ih]
      obtain rfl := Option.some.inj made
      cases side <;> simp [Weave.insert, hsize, ih]
    · rw [hw] at made
      obtain rfl := Option.some.inj made
      exact ih

theorem shown_of_nil (run : Accepted [] edits o) :
    o.weave.shown = some [⟨0, [], [], none, []⟩] := by
  obtain ⟨hsegments, hchain⟩ := run.weave_of_nil
  rw [Weave.shown, hsegments, hchain]
  rfl

end Accepted
end GadgetBuild.Overlay
