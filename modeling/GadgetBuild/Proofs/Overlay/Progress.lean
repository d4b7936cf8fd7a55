import GadgetBuild.Proofs.Overlay.Steps

/-!
Edits that the rule allows are made. Moves keep the order of two bytes that every moved span has or
lacks together, so the first segment of a replaced span is shown before the last, and the links lead
from the one to the other.
-/

namespace GadgetBuild.Overlay

/-- Two bytes that are in the same moved spans are in the order of the text. -/
def InOrder (moved : List (Span × Nat)) (bytes : List Nat) : Prop :=
  bytes.Pairwise fun j k => (∀ m ∈ moved, m.1.Has j ↔ m.1.Has k) → j < k

theorem InOrder.arrange (h : InOrder moved bytes) (he : Edit.move? e = some (s, i)) :
    InOrder (moved ++ [(s, i)]) (e.arrange bytes) := by
  have hmono : ∀ l, List.Sublist l bytes → InOrder (moved ++ [(s, i)]) l := fun l hl =>
    (h.sublist hl).imp fun hjk hsame => hjk fun m hm => hsame m (by simp [hm])
  have hcross : ∀ j k, ¬ (s.Has j ↔ s.Has k) →
      (∀ m ∈ moved ++ [(s, i)], m.1.Has j ↔ m.1.Has k) → j < k := fun j k hne hsame =>
    absurd (hsame (s, i) (by simp)) hne
  have hothers : InOrder (moved ++ [(s, i)]) (bytes.filter fun k => ¬ s.Has k) :=
    hmono _ List.filter_sublist
  rw [InOrder, ← List.takeWhile_append_dropWhile (p := (· ≠ i))
    (l := bytes.filter fun k => ¬ s.Has k), List.pairwise_append] at hothers
  obtain ⟨hbefore, hbehind, hbetween⟩ := hothers
  have hlacks : ∀ x, List.Sublist x (bytes.filter fun k => ¬ s.Has k) → ∀ k ∈ x, ¬ s.Has k :=
    fun x hx k hk => by simpa using (List.mem_filter.mp (hx.subset hk)).2
  have hhas : ∀ k ∈ bytes.filter s.Has, s.Has k := fun k hk => by
    simpa using (List.mem_filter.mp hk).2
  simp only [Edit.arrange, he]
  refine List.pairwise_append.mpr ⟨hbefore, List.pairwise_append.mpr
    ⟨hmono _ List.filter_sublist, hbehind, fun j hj k hk => hcross j k ?_⟩, fun j hj k hk => ?_⟩
  · have := hhas j hj
    have := hlacks _ (List.dropWhile_sublist _) k hk
    tauto
  · have hj' := hlacks _ (List.takeWhile_sublist _) j hj
    rcases List.mem_append.mp hk with hk | hk
    · refine hcross j k ?_
      have := hhas k hk
      tauto
    · exact hbetween j hj k hk

theorem inOrder_arrangement (text : Text) (edits : List Edit) :
    InOrder (moves edits) (arrangement text edits) := by
  induction edits using List.reverseRecOn with
  | nil =>
    change (List.range text.size).Pairwise _
    refine List.Pairwise.imp (fun {j k} hlt => ?_) List.pairwise_lt_range
    exact fun _ => hlt
  | append_singleton edits e ih =>
    rw [arrangement_concat, moves_append]
    cases he : e.move? with
    | none => simpa [Edit.arrange, moves, he] using ih
    | some m =>
      obtain ⟨s, i⟩ := m
      have hmoves : moves [e] = [(s, i)] := by simp [moves, he]
      rw [hmoves]
      exact ih.arrange he

/-- Links that lead from the first segment of a span to the last let it be replaced. -/
theorem Weave.Shows.exists_replace {w : Weave} {t : Text} {span : Span} {m : List Segment}
    (h : ((w.split span.start).split span.stop).Shows t (p ++ a :: (m ++ b :: q)))
    (ha : a.start = span.start) (hb : b.stop = span.stop) (f : Segment → Segment) :
    ∃ w', w.replace span f = some w' := by
  have hend := h.endingAt (s := b) (by simp) hb
  have hlead := h.order.next
  simp only [List.map_append, List.map_cons] at hlead
  obtain ⟨hget, hrest⟩ := (Links.lead_append.mp hlead).2
  obtain ⟨hinner, -⟩ := Links.lead_append.mp hrest
  have hnodup := h.order.nodup
  simp only [List.map_append, List.map_cons, List.nodup_append', List.nodup_cons] at hnodup
  obtain ⟨-, ⟨ha', -, -, hm⟩, -⟩ := hnodup
  have hne : b.start ≠ span.start := by
    rw [← ha]
    exact fun he => ha' (by simp [he])
  have hlen : (m.map (·.start)).length ≤
      ((w.split span.start).split span.stop).segments.length := by
    rw [← h.perm.length_eq]
    simp
    omega
  refine ⟨_, replace_eq_some_iff.mpr ⟨b.start, m.map (·.start), hend, Or.inr ⟨hne, ?_⟩, rfl⟩⟩
  rw [ha] at hget
  refine Chain.walk_eq_some_iff.mpr ⟨?_, by simpa using hinner, hlen, ?_⟩
  · simpa using hget
  · intro k hk he
    obtain rfl := Option.some.inj he
    exact hm hk (by simp)

/-- The first segment of a span is shown before the last, if no moved span crosses an end of it. -/
theorem Arranged.exists_replace {text : Text} {moved : List (Span × Nat)} {named order : List Nat}
    {w : Weave} {l : List Segment} {s : Span}
    (h : Arranged text moved named order ((w.split s.start).split s.stop) l)
    (horder : InOrder moved order) (hs : s.start < s.stop) (hin : s.stop ≤ text.size)
    (hstart : s.start ∈ named) (hstop : s.stop ∈ named)
    (hnested : ∀ m ∈ moved, m.1.Covers s ∨ ¬ m.1.Shares s) (f : Segment → Segment) :
    ∃ w', w.replace s f = some w' := by
  have hclear : ∀ k ∈ named, ∀ r ∈ ((w.split s.start).split s.stop).segments,
      r.straddles k = false := fun k hk r hr => h.clear k hk r (h.shows.mem.mpr hr)
  obtain ⟨a, ha, has⟩ :=
    h.shows.tiles.exists_start (hclear s.start hstart) (Nat.zero_le _) (by omega)
  obtain ⟨b, hb, hbs⟩ := h.shows.tiles.exists_stop (hclear s.stop hstop) (by omega) (by omega)
  have hbsolid := h.shows.tiles.solid b hb
  have hbstart := Segment.not_straddles_iff.mp (hclear s.start hstart b hb)
  by_cases hab : b.start = s.start
  · obtain rfl := h.shows.tiles.eq_of_start ha hb (has.trans hab.symm)
    exact ⟨_, h.shows.replace_eq (h.shows.mem.mpr ha) has hbs⟩
  obtain ⟨p, r, rfl⟩ := List.append_of_mem (h.shows.mem.mpr ha)
  have hbl := h.shows.mem.mpr hb
  have hmem : ∀ u ∈ ((w.split s.start).split s.stop).segments, u.start ∈ u.bytes := fun u hu =>
    Segment.mem_bytes.mpr ⟨Nat.le_refl _, h.shows.tiles.solid u hu⟩
  rcases List.mem_append.mp hbl with hbp | hbr
  · rw [← h.order, List.flatMap_append] at horder
    have hlt := (List.pairwise_append.mp horder).2.2 b.start
      (List.mem_flatMap.mpr ⟨b, hbp, hmem b hb⟩) a.start
      (List.mem_flatMap.mpr ⟨a, by simp, hmem a ha⟩) fun m hm => by
        have hm := hnested m hm
        unfold Span.Covers Span.Shares Span.Meets at hm
        unfold Span.Has
        omega
    omega
  · rcases List.mem_cons.mp hbr with rfl | hbr
    · exact absurd has hab
    · obtain ⟨m, q, rfl⟩ := List.append_of_mem hbr
      exact h.shows.exists_replace has hbs f

variable {text : Text}

/-- The rule leaves no span to be replaced that a moved span crosses. -/
theorem Accepted.covers_or_clear (run : Accepted text edits o) (allowed : o.history.Allows text e)
    (he : Edit.replacement? e = some (s, content)) :
    ∀ m ∈ moves edits, m.1.Covers s ∨ ¬ m.1.Shares s := by
  intro m hm
  have hmoved := run.mem_moved.mpr ⟨m.2, hm⟩
  obtain ⟨hne, rfl | ⟨rfl, rfl⟩⟩ := Edit.replacement?_eq_some_iff.mp he
  · exact Span.covers_or_clear_iff.mpr (allowed.2.2.2 m.1 hmoved)
  · exact Span.covers_or_clear_iff.mpr ((allowed.2 hne).2 m.1 hmoved)

/-- After a run without moves in place, the next edit that the rule allows is made, unless a moved
span has a target inside. -/
theorem Accepted.exists_apply (run : Accepted text edits o) (allowed : o.history.Allows text e)
    (hun : Unnested (edits ++ [e])) (hshifts : Shifts text edits) :
    ∃ w, o.weave.apply e = some w := by
  by_cases htext : text = []
  · subst htext
    obtain ⟨-, -, ⟨side, place, content, rfl⟩ | hw⟩ := run.kinds_of_nil allowed
    · exact ⟨_, rfl⟩
    · exact ⟨_, hw o.weave⟩
  obtain ⟨l, h⟩ := run.arranged htext hun.append_left hshifts
  rcases e.kinds with ⟨s, c, he, -, -⟩ | ⟨s, i, he, -, -⟩ | ⟨side, place, i, content, rfl⟩ |
      ⟨-, -, -, hw⟩
  · obtain ⟨hin, hs, -⟩ := run.allows_replacement allowed he
    obtain ⟨f, hf, -⟩ := o.weave.apply_of_replacement he
    obtain ⟨l', h'⟩ := h.split_span hin
    rw [hf]
    exact h'.exists_replace (inOrder_arrangement text edits) hs (Text.isBoundary_le hin.2.2)
      (by simp) (by simp) (run.covers_or_clear allowed he) f
  · obtain ⟨hin, hs, htarget, hout, -⟩ := run.allows_move allowed he
    obtain ⟨l', h'⟩ := h.split_move hin htarget.2.1
    have hsize := Text.isBoundary_le hin.2.2
    have hseam := run.seamless_move allowed hun he
    rw [o.weave.apply_of_move he]
    by_cases hplace : [s.stop - 1, i] <:+: arrangement text edits
    · obtain ⟨_, _, _, _, _, -, -, w, hw, -⟩ :=
        h'.relocate_in_place hs hsize (by simp) (by simp) hseam hplace
      exact ⟨w, hw⟩
    · obtain ⟨w, _, hw, -⟩ := h'.relocate he hs hsize (Text.isBoundary_le htarget.2.1)
        (fun hhas => hout ⟨hhas.1, Nat.le_of_lt hhas.2⟩) (by simp) (by simp) (by simp) hseam hplace
      exact ⟨w, hw⟩
  · exact ⟨_, rfl⟩
  · exact ⟨_, hw o.weave⟩

end GadgetBuild.Overlay
