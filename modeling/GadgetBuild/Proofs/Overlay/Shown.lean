import GadgetBuild.Proofs.Overlay.Links
import GadgetBuild.Proofs.Overlay.Tiling

/-!
A weave against the list of its segments in the order shown. Each operation of a weave cuts that
list at its offsets, and then changes or moves members of it.
-/

namespace GadgetBuild.Overlay

namespace Tiles

variable {t : Text}

theorem find_start (h : Tiles a segments t) (hs : s ∈ segments) (hi : s.start = i) :
    segments.find? (fun r => r.start = i) = some s := by
  subst hi
  cases hf : segments.find? (fun r => r.start = s.start) with
  | none =>
    have := List.find?_eq_none.mp hf s hs
    simp at this
  | some r =>
    have hr : r.start = s.start := by simpa using List.find?_some hf
    rw [h.eq_of_start (List.mem_of_find?_eq_some hf) hs hr]

theorem find_stop (h : Tiles a segments t) (hs : s ∈ segments) (hi : s.stop = i) :
    segments.find? (fun r => r.stop = i) = some s := by
  subst hi
  cases hf : segments.find? (fun r => r.stop = s.stop) with
  | none =>
    have := List.find?_eq_none.mp hf s hs
    simp at this
  | some r =>
    have hr : r.stop = s.stop := by simpa using List.find?_some hf
    rw [h.eq_of_stop (List.mem_of_find?_eq_some hf) hs hr]

end Tiles

theorem mem_of_mem_others {p m q : List α} (h : r ∈ p ++ q) : r ∈ p ++ (m ++ q) :=
  (List.Sublist.append_left (List.sublist_append_right m q) p).subset h

namespace Weave

variable {w : Weave} {t : Text} {l : List Segment}

theorem shown_subset (h : w.shown = some l) : l ⊆ w.segments := by
  obtain ⟨starts, -, hl⟩ := Option.bind_eq_some_iff.mp h
  obtain rfl := Option.some.inj hl
  intro r hr
  obtain ⟨k, -, hk⟩ := List.mem_filterMap.mp hr
  exact List.mem_of_find?_eq_some hk

/-- Segments in the order to which the chain's links lead are what is shown. -/
theorem shown_eq (ht : Tiles 0 w.segments t) (hl : w.chain.Leads (l.map (·.start)))
    (hsub : l ⊆ w.segments) : w.shown = some l := by
  have hlen : (l.map (·.start)).length ≤ w.segments.length := by
    simpa using (List.Nodup.of_map _ hl.nodup).length_le_of_subset hsub
  have hfind : ∀ s ∈ l, ((fun a => w.segments.find? fun s => s.start = a) ∘ (·.start)) s = some s :=
    fun s hs => ht.find_start (hsub hs) rfl
  rw [shown, hl.walk hlen, Option.bind_eq_bind, Option.bind_some, List.filterMap_map,
    List.filterMap_congr hfind, List.filterMap_some]
  rfl

/-- The weave is of the text, and shows these segments in this order. -/
structure Shows (w : Weave) (t : Text) (l : List Segment) : Prop where
  tiles : Tiles 0 w.segments t
  perm : l.Perm w.segments
  order : w.chain.Orders (l.map (·.start))

namespace Shows

theorem ofText (h : t ≠ []) : (ofText t).Shows t [⟨0, t, [], none, []⟩] where
  tiles := ⟨rfl, h, [], by simp, rfl⟩
  perm := .rfl
  order := .single 0

theorem shown_eq (h : w.Shows t l) : w.shown = some l :=
  Weave.shown_eq h.tiles h.order.toLeads h.perm.subset

theorem mem (h : w.Shows t l) : s ∈ l ↔ s ∈ w.segments :=
  h.perm.mem_iff

theorem size_eq (h : w.Shows t l) : w.size = t.size := by
  rw [size, h.tiles.text_eq]

theorem eq_of_start (h : w.Shows t l) (hs : s ∈ l) (hr : r ∈ l) (he : s.start = r.start) : s = r :=
  h.tiles.eq_of_start (h.mem.mp hs) (h.mem.mp hr) he

theorem eq_of_stop (h : w.Shows t l) (hs : s ∈ l) (hr : r ∈ l) (he : s.stop = r.stop) : s = r :=
  h.tiles.eq_of_stop (h.mem.mp hs) (h.mem.mp hr) he

theorem startingAt (h : w.Shows t l) (hs : s ∈ l) (hi : s.start = i) :
    w.startingAt? i = some i := by
  rw [startingAt?, h.tiles.find_start (h.mem.mp hs) hi, Option.map_some, hi]

theorem endingAt (h : w.Shows t l) (hs : s ∈ l) (hi : s.stop = i) :
    w.endingAt? i = some s.start := by
  rw [endingAt?, h.tiles.find_stop (h.mem.mp hs) hi, Option.map_some]

theorem notMem (h : w.Shows t (p ++ s :: q)) : s ∉ p ++ q := by
  have hn := List.Nodup.of_map _ h.order.nodup
  exact (List.nodup_cons.mp (List.perm_middle.nodup_iff.mp hn)).1

/-- A cut puts two segments in place of the one with the offset inside, if there is one. -/
theorem cut_cases (h : w.Shows t l) (hi : Text.isBoundary i t = true) :
    (∀ s ∈ l, s.straddles i = false) ∨ ∃ p s q x y, l = p ++ s :: q ∧ s.straddles i = true ∧
      s.text = x ++ y ∧ x ≠ [] ∧ y ≠ [] ∧ s.start + Text.size x = i ∧
      (∀ r ∈ p ++ q, r.straddles i = false) ∧ l.flatMap (Segment.cut i) =
        p ++ { s with text := x, trail := [] } ::
          ⟨i, y, [], s.content.map fun _ => [], s.trail⟩ :: q := by
  by_cases hno : ∀ s ∈ l, s.straddles i = false
  · exact Or.inl hno
  right
  simp only [not_forall, Bool.not_eq_false] at hno
  obtain ⟨s, hs, hstr⟩ := hno
  have hin := Segment.straddles_iff.mp hstr
  obtain ⟨p, q, rfl⟩ := List.append_of_mem hs
  obtain ⟨x, y, hxy, hx, hy, he⟩ :=
    Segment.exists_parts h.tiles (h.mem.mp hs) (by simpa using hi) hstr
  have hother : ∀ r ∈ p ++ q, r.straddles i = false := by
    intro r hr
    by_contra hc
    have hrin := Segment.straddles_iff.mp (by simpa using hc)
    have hrl : r ∈ p ++ s :: q := mem_of_mem_others (m := [s]) hr
    have hrs := h.tiles.eq_of_meet (h.mem.mp hrl) (h.mem.mp hs) (by omega) (by omega)
    subst hrs
    exact h.notMem hr
  refine ⟨p, s, q, x, y, rfl, hstr, hxy, hx, hy, he, hother, ?_⟩
  rw [List.flatMap_append, List.flatMap_cons, Segment.cut_eq hxy hx hy he,
    Segment.flatMap_cut_of_not_straddles fun r hr => hother r (by simp [hr]),
    Segment.flatMap_cut_of_not_straddles fun r hr => hother r (by simp [hr])]
  rfl

theorem split (h : w.Shows t l) (hi : Text.isBoundary i t = true) :
    (w.split i).Shows t (l.flatMap (Segment.cut i)) := by
  rw [Weave.split]
  rcases h.cut_cases hi with hno | ⟨p, s, q, x, y, rfl, hstr, hxy, hx, hy, he, _, hcut⟩
  · have hnone : w.segments.find? (·.straddles i) = none :=
      List.find?_eq_none.mpr fun s hs => by simp [hno s (h.mem.mpr hs)]
    rw [hnone, Segment.flatMap_cut_of_not_straddles hno]
    exact h
  · have hs : s ∈ w.segments := h.mem.mp (by simp)
    have hin := Segment.straddles_iff.mp hstr
    have hfind : w.segments.find? (·.straddles i) = some s := by
      cases hf : w.segments.find? (·.straddles i) with
      | none => exact absurd hstr (List.find?_eq_none.mp hf s hs)
      | some r =>
        have hr := Segment.straddles_iff.mp (by simpa using List.find?_some hf)
        rw [h.tiles.eq_of_meet (List.mem_of_find?_eq_some hf) hs (by omega) (by omega)]
    have hfresh : i ∉ (p ++ s :: q).map (·.start) := by
      intro hm
      obtain ⟨r, hr, hri⟩ := List.mem_map.mp hm
      have hsolid := h.tiles.solid r (h.mem.mp hr)
      have hsr := h.tiles.eq_of_meet hs (h.mem.mp hr) (by omega) (by omega)
      subst hsr
      omega
    rw [hfind]
    refine ⟨h.tiles.cut (Nat.zero_le i) (by simpa using hi), h.perm.flatMap_right _, ?_⟩
    rw [hcut]
    have horder := h.order
    rw [List.map_append, List.map_cons, List.append_cons] at horder hfresh
    have hins := horder.insertAfter (a := s.start) (by simp) hfresh
    rw [← List.append_cons] at hins
    simpa using hins

/-- What changes segments in place changes what is shown in place. -/
theorem map (h : w.Shows t l) (hg : ∀ s ∈ w.segments, (g s).start = s.start ∧ (g s).text = s.text) :
    Shows { w with segments := w.segments.map g } t (l.map g) where
  tiles := h.tiles.map hg
  perm := h.perm.map g
  order := by
    have he : (l.map g).map (·.start) = l.map (·.start) := by
      rw [List.map_map]
      exact List.map_congr_left fun s hs => (hg s (h.mem.mp hs)).1
    rw [he]
    exact h.order

theorem modify (h : w.Shows t l) (which : Segment → Bool)
    (hf : ∀ s, (f s).start = s.start ∧ (f s).text = s.text) :
    (w.modify which f).Shows t (l.map fun s => if which s then f s else s) := by
  apply h.map
  intro s _
  split
  · exact hf s
  · exact ⟨rfl, rfl⟩

/-- A change of a single segment. -/
theorem modify_one {which : Segment → Bool} (h : w.Shows t (p ++ s :: q))
    (hf : ∀ s, (f s).start = s.start ∧ (f s).text = s.text) (hs : which s = true)
    (hone : ∀ r ∈ p ++ s :: q, which r = true → r = s) :
    (w.modify which f).Shows t (p ++ f s :: q) := by
  have hout : ∀ r ∈ p ++ q, (if which r then f r else r) = r := by
    intro r hr
    apply if_neg
    intro hw
    have hrl : r ∈ p ++ s :: q := mem_of_mem_others (m := [s]) hr
    rw [hone r hrl hw] at hr
    exact h.notMem hr
  have hmap : ∀ m : List Segment, m ⊆ p ++ q →
      m.map (fun r => if which r then f r else r) = m := by
    intro m hm
    rw [List.map_congr_left fun r hr => hout r (hm hr), List.map_id']
  have := h.modify which hf
  rwa [List.map_append, List.map_cons, hmap p (by simp), hmap q (by simp), if_pos hs] at this

theorem modify_starting (h : w.Shows t (p ++ s :: q))
    (hf : ∀ s, (f s).start = s.start ∧ (f s).text = s.text) (hs : s.start = i) :
    (w.modify (·.start = i) f).Shows t (p ++ f s :: q) := by
  apply h.modify_one hf (by simpa using hs)
  intro r hr hw
  exact h.eq_of_start hr (by simp) (by simpa [hs] using hw)

theorem modify_ending (h : w.Shows t (p ++ s :: q))
    (hf : ∀ s, (f s).start = s.start ∧ (f s).text = s.text) (hs : s.stop = i) :
    (w.modify (·.stop = i) f).Shows t (p ++ f s :: q) := by
  apply h.modify_one hf (by simpa using hs)
  intro r hr hw
  exact h.eq_of_stop hr (by simp) (by simpa [hs] using hw)

/-- An insertion to the left goes behind the segment that ends there. -/
theorem insert_left (h : (w.split i).Shows t (p ++ s :: q)) (hs : s.stop = i) (hi : i ≠ 0) :
    (w.insert .left place i content).Shows t
      (p ++ { s with trail := place.add content s.trail } :: q) := by
  rw [Weave.insert, if_neg hi]
  exact h.modify_ending (fun _ => ⟨rfl, rfl⟩) hs

/-- A span that is one segment is replaced there. -/
theorem replace_eq (h : ((w.split span.start).split span.stop).Shows t l) (hs : s ∈ l)
    (hstart : s.start = span.start) (hstop : s.stop = span.stop) : w.replace span f =
      some (((w.split span.start).split span.stop).modify (·.start = span.start) f) :=
  replace_eq_some_iff.mpr ⟨span.start, [], hstart ▸ h.endingAt hs hstop, Or.inl ⟨rfl, rfl⟩,
    (modify_nil _).symm⟩

theorem replace_one (h : ((w.split span.start).split span.stop).Shows t (p ++ s :: q))
    (hf : ∀ s, (f s).start = s.start ∧ (f s).text = s.text) (hstart : s.start = span.start)
    (hstop : s.stop = span.stop) :
    ∃ w', w.replace span f = some w' ∧ w'.Shows t (p ++ f s :: q) :=
  ⟨_, h.replace_eq (s := s) (by simp) hstart hstop, h.modify_starting hf hstart⟩

/-- The last of several segments of a span is left as it is. -/
theorem replace_many (h : ((w.split span.start).split span.stop).Shows t l)
    (hf : ∀ s, (f s).start = s.start ∧ (f s).text = s.text) (hs : s ∈ l)
    (hstart : s.start ≠ span.start) (hstop : s.stop = span.stop)
    (hw : w.replace span f = some w') : ∃ m, w'.Shows t m ∧ s ∈ m := by
  obtain ⟨b, inner, hb, hinner, rfl⟩ := replace_eq_some_iff.mp hw
  obtain rfl : s.start = b := Option.some.inj ((h.endingAt hs hstop).symm.trans hb)
  have h₁ := h.modify (·.start = span.start) hf
  have hs₁ : s ∈ l.map fun r => if r.start = span.start then f r else r :=
    List.mem_map.mpr ⟨s, hs, by simp [hstart]⟩
  refine ⟨_, h₁.modify _ (f := Segment.wipe) fun _ => ⟨rfl, rfl⟩, List.mem_map.mpr ⟨s, ?_, ?_⟩⟩
  · simpa using hs₁
  · apply if_neg
    rcases hinner with ⟨he, -⟩ | ⟨-, hinner⟩
    · exact absurd he hstart
    · obtain ⟨-, -, -, hnot⟩ := Chain.walk_eq_some_iff.mp hinner
      simpa using fun hc => hnot _ hc rfl

/-- Where a move goes: before the segment that starts there, or behind the last. -/
theorem target (h : w.Shows t (p ++ r)) (hi : ∀ s, r.head? = some s → s.start = i)
    (hend : r = [] → i = t.size) : w.startingAt? i = (r.map (·.start)).head? := by
  cases r with
  | nil =>
    have hnone : w.segments.find? (fun s => s.start = i) = none := by
      refine List.find?_eq_none.mpr fun s hs => ?_
      have := h.tiles.solid s hs
      have := h.tiles.bounds s hs
      have := hend rfl
      simp only [decide_eq_true_eq]
      omega
    rw [startingAt?, hnone]
    rfl
  | cons s r =>
    have hs := hi s rfl
    simp [h.startingAt (s := s) (by simp) hs, hs]

/-- A span is moved if the chain moves the run from its first segment to its last. -/
theorem relocate_eq
    (h : (((w.split span.start).split span.stop).split i).Shows t l)
    (hlast : last ∈ l) (hstop : last.stop = span.stop)
    (hmove : (((w.split span.start).split span.stop).split i).chain.move span.start last.start
      ((((w.split span.start).split span.stop).split i).startingAt? i) = some c) :
    w.relocate span i = some { ((w.split span.start).split span.stop).split i with chain := c } :=
  relocate_eq_some_iff.mpr ⟨_, c, h.endingAt hlast hstop, hmove, rfl⟩

/-- A span moved back stands behind what stood between it and the target. -/
theorem relocate_back
    (h : (((w.split span.start).split span.stop).split i).Shows t (p ++ (run ++ (q ++ r))))
    (hfirst : run.head? = some first) (hstart : first.start = span.start)
    (hlast : run.getLast? = some last) (hstop : last.stop = span.stop) (hq : q ≠ [])
    (hi : ∀ s, r.head? = some s → s.start = i) (hend : r = [] → i = t.size) :
    ∃ w', w.relocate span i = some w' ∧ w'.Shows t (p ++ (q ++ (run ++ r))) := by
  have hmem := List.mem_of_getLast? hlast
  have hperm : (p ++ (q ++ (run ++ r))).Perm (p ++ (run ++ (q ++ r))) := by
    refine .append_left p ?_
    rw [← List.append_assoc, ← List.append_assoc]
    exact .append_right r List.perm_append_comm
  have horder := h.order
  have h' := h
  rw [← List.append_assoc, ← List.append_assoc] at h'
  have htarget := h'.target hi hend
  simp only [List.map_append] at horder
  have hq' : q.map (·.start) ≠ [] := by simpa using hq
  obtain ⟨c, hmove, hc⟩ := horder.move_back (a := span.start) (b := last.start)
    (by rw [List.head?_map, hfirst, Option.map_some, hstart])
    (by rw [List.getLast?_map, hlast, Option.map_some])
    (List.head?_eq_some_head hq') (List.getLast?_eq_some_getLast hq')
  rw [← htarget] at hmove
  exact ⟨_, relocate_eq h (by simp [hmem]) hstop hmove, h.tiles, hperm.trans h.perm,
    by simpa only [List.map_append] using hc⟩

/-- A span moved forth stands before what stood between the target and it. -/
theorem relocate_forth
    (h : (((w.split span.start).split span.stop).split i).Shows t (p ++ (q ++ (run ++ r))))
    (hfirst : run.head? = some first) (hstart : first.start = span.start)
    (hlast : run.getLast? = some last) (hstop : last.stop = span.stop)
    (hq : q.head? = some s) (hi : s.start = i) :
    ∃ w', w.relocate span i = some w' ∧ w'.Shows t (p ++ (run ++ (q ++ r))) := by
  have hmem := List.mem_of_getLast? hlast
  have hperm : (p ++ (run ++ (q ++ r))).Perm (p ++ (q ++ (run ++ r))) := by
    refine .append_left p ?_
    rw [← List.append_assoc, ← List.append_assoc]
    exact .append_right r List.perm_append_comm
  have horder := h.order
  have hne : q ≠ [] := by
    rintro rfl
    cases hq
  have hne' : q.map (·.start) ≠ [] := by simpa using hne
  have htarget : (((w.split span.start).split span.stop).split i).startingAt? i =
      (q.map (·.start)).head? := by
    rw [h.startingAt (s := s) (by simp [List.mem_of_mem_head? hq]) hi, List.head?_map, hq,
      Option.map_some, hi]
  simp only [List.map_append] at horder
  obtain ⟨c, hmove, hc⟩ := horder.move_forth (a := span.start) (b := last.start)
    (by rw [List.head?_map, hfirst, Option.map_some, hstart])
    (by rw [List.getLast?_map, hlast, Option.map_some])
    (List.head?_eq_some_head hne') (List.getLast?_eq_some_getLast hne')
  rw [← htarget] at hmove
  exact ⟨_, relocate_eq h (by simp [hmem]) hstop hmove, h.tiles, hperm.trans h.perm,
    by simpa only [List.map_append] using hc⟩

/-- A span that is last already stays. -/
theorem relocate_last
    (h : (((w.split span.start).split span.stop).split i).Shows t (p ++ run))
    (hlast : run.getLast? = some last) (hstop : last.stop = span.stop) (hi : i = t.size) :
    ∃ w', w.relocate span i = some w' ∧ w'.Shows t (p ++ run) := by
  have hmem := List.mem_of_getLast? hlast
  have htarget := Shows.target (p := p ++ run) (r := []) (by simpa using h) (by simp) fun _ => hi
  have hend : (((w.split span.start).split span.stop).split i).chain.last = last.start := by
    apply Option.some.inj
    rw [h.order.last, List.map_append, List.getLast?_append, List.getLast?_map, hlast]
    rfl
  refine ⟨_, relocate_eq h (by simp [hmem]) hstop ?_, h⟩
  rw [htarget]
  exact Chain.move_last hend

/-- A span moved to where it stands is no longer shown, unless it is first. -/
theorem relocate_in_place
    (h : (((w.split span.start).split span.stop).split i).Shows t (p ++ (run ++ r)))
    (hfirst : run.head? = some first) (hstart : first.start = span.start)
    (hlast : run.getLast? = some last) (hstop : last.stop = span.stop)
    (hr : r.head? = some s) (hi : s.start = i) : ∃ w', w.relocate span i = some w' ∧
      w'.shown = some (if p = [] then run ++ r else p ++ r) := by
  have hmem := List.mem_of_getLast? hlast
  have horder := h.order
  have htarget : (((w.split span.start).split span.stop).split i).startingAt? i =
      (r.map (·.start)).head? := by
    rw [h.startingAt (s := s) (by simp [List.mem_of_mem_head? hr]) hi, List.head?_map, hr,
      Option.map_some, hi]
  simp only [List.map_append] at horder
  obtain ⟨c, hmove, hleads⟩ := horder.move_in_place (a := span.start) (b := last.start) (x := i)
    (by rw [List.head?_map, hfirst, Option.map_some, hstart])
    (by rw [List.getLast?_map, hlast, Option.map_some])
    (by rw [List.head?_map, hr, Option.map_some, hi])
  rw [← htarget] at hmove
  refine ⟨_, relocate_eq h (by simp [hmem]) hstop hmove,
    Weave.shown_eq h.tiles (l := if p = [] then run ++ r else p ++ r) ?_ ?_⟩
  · split
    · rename_i hp
      simpa [hp] using hleads
    · rename_i hp
      simpa [hp] using hleads
  · intro s hs
    apply h.mem.mp
    split at hs
    · simp only [List.mem_append] at hs ⊢
      exact Or.inr hs
    · simp only [List.mem_append] at hs ⊢
      rcases hs with hs | hs
      · exact Or.inl hs
      · exact Or.inr (Or.inr hs)

end Shows
end Weave
end GadgetBuild.Overlay
