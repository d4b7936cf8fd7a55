import GadgetBuild.Proofs.Overlay.Runs
import GadgetBuild.Proofs.Overlay.Steps

/-!
The texts inserted at each offset. They stay with the segments that end and start there, however
the text is cut, updated and moved before the insertion and after it.
-/

namespace GadgetBuild.Overlay

/-- The text inserted at an offset and side, after one more edit. -/
def Edit.insertedAt (side : Side) (i : Nat) (old : Text) : Edit → Text
  | .insert side' place j content => if side' = side ∧ j = i then place.add content old else old
  | _ => old

/-- All that is inserted at an offset and side. -/
def insertedAt (edits : List Edit) (side : Side) (i : Nat) : Text :=
  edits.foldl (Edit.insertedAt side i) []

theorem insertedAt_concat (edits : List Edit) (e : Edit) (side : Side) (i : Nat) :
    insertedAt (edits ++ [e]) side i = e.insertedAt side i (insertedAt edits side i) := by
  simp [insertedAt]

/-- Nothing is inserted at an offset that no edit names. -/
theorem insertedAt_eq_nil (h : i ∉ offsets edits) (side : Side) : insertedAt edits side i = [] := by
  induction edits using List.reverseRecOn with
  | nil => rfl
  | append_singleton edits e ih =>
    rw [offsets_append, List.mem_append, not_or, offsets_singleton] at h
    rw [insertedAt_concat, ih h.1]
    cases e with
    | insert side' place j content =>
      have hj : ¬ i = j := by simpa [Edit.offsets] using h.2
      exact if_neg fun hc => hj hc.2.symm
    | update | remove | relocate => rfl

/-- An edit that inserts nothing. -/
theorem insertedAt_of_not_insert (edits : List Edit)
    (he : ∀ side place i content, e ≠ .insert side place i content) :
    insertedAt (edits ++ [e]) = insertedAt edits := by
  funext side i
  rw [insertedAt_concat]
  cases e with
  | insert side' place j content => exact absurd rfl (he side' place j content)
  | update | remove | relocate => rfl

/-- Adds what an edit inserts to the texts at the ends of a segment. -/
def Segment.attach (e : Edit) (s : Segment) : Segment :=
  { s with
    lead := e.insertedAt .right s.start s.lead
    trail := e.insertedAt .left s.stop s.trail }

/-- Adds it wherever a text may stand in a weave. -/
def Weave.attach (e : Edit) (w : Weave) : Weave where
  segments := w.segments.map (·.attach e)
  chain := w.chain
  lead := e.insertedAt .left 0 w.lead
  trail := e.insertedAt .right w.size w.trail

theorem Segment.attach_left (s : Segment) (content : Text) :
    s.attach (.insert .left place i content) =
      if s.stop = i then { s with trail := place.add content s.trail } else s := by
  simp only [attach, Edit.insertedAt, true_and, reduceCtorEq, false_and, if_false,
    eq_comm (a := i)]
  split <;> rfl

theorem Segment.attach_right (s : Segment) (content : Text) :
    s.attach (.insert .right place i content) =
      if s.start = i then { s with lead := place.add content s.lead } else s := by
  simp only [attach, Edit.insertedAt, true_and, reduceCtorEq, false_and, if_false,
    eq_comm (a := i)]
  split <;> rfl

/-- At its ends a text is cut already. -/
theorem Tiles.split_end {text : Text} {w : Weave} (h : Tiles 0 w.segments text)
    (hi : i = 0 ∨ i = text.size) : w.split i = w := by
  have hnone : w.segments.find? (·.straddles i) = none := by
    refine List.find?_eq_none.mpr fun s hs hstr => ?_
    have := h.bounds s hs
    have := Segment.straddles_iff.mp hstr
    omega
  rw [Weave.split, hnone]

/-- An insertion cuts a weave at its offset and adds to all that is attached there. -/
theorem Weave.insert_eq {text : Text} {w : Weave} (ht : Tiles 0 w.segments text)
    (hi : Text.isBoundary i text = true) (side : Side) (place : Place) (content : Text) :
    w.insert side place i content = (w.split i).attach (.insert side place i content) := by
  have hsize : w.size = text.size := by rw [size, ht.text_eq]
  have hsize' : (w.split i).size = text.size := by rw [size, (ht.split hi).text_eq]
  cases side with
  | left =>
    rw [Weave.insert, attach]
    simp only [Segment.attach_left]
    split
    · rename_i hzero
      subst hzero
      have hmap : w.segments.map (fun s => if s.stop = 0 then
          { s with trail := place.add content s.trail } else s) = w.segments :=
        (List.map_congr_left fun s hs => if_neg (Nat.ne_zero_of_lt (ht.solid s hs))).trans
          (List.map_id' _)
      rw [ht.split_end (Or.inl rfl), hmap]
      simp [Edit.insertedAt]
    · rename_i hzero
      simp [modify, Edit.insertedAt, hzero]
  | right =>
    rw [Weave.insert, attach]
    simp only [Segment.attach_right]
    split
    · rename_i hend
      rw [hsize] at hend
      subst hend
      have hmap : w.segments.map (fun s => if s.start = text.size then
          { s with lead := place.add content s.lead } else s) = w.segments := by
        refine (List.map_congr_left fun s hs => if_neg ?_).trans (List.map_id' _)
        have := ht.solid s hs
        have := ht.bounds s hs
        omega
      rw [ht.split_end (Or.inr rfl), hmap, hsize]
      simp [Edit.insertedAt]
    · rename_i hend
      rw [hsize] at hend
      simp [modify, Edit.insertedAt, hsize', hend]

/-- The segments carry the texts inserted at their ends, and the weave those inserted before and
behind the whole text. -/
structure Adorned (inserted : Side → Nat → Text) (size : Nat) (w : Weave) : Prop where
  lead : w.lead = inserted .left 0
  trail : w.trail = inserted .right size
  around : ∀ s ∈ w.segments, s.lead = inserted .right s.start ∧ s.trail = inserted .left s.stop

namespace Adorned

variable {text : Text} {inserted : Side → Nat → Text} {w : Weave} {l : List Segment}
  {replaced : List (Span × Text)} {moved : List (Span × Nat)} {named order : List Nat}

theorem ofText (text : Text) : Adorned (insertedAt []) text.size (.ofText text) where
  lead := rfl
  trail := rfl
  around s hs := by
    rw [List.mem_singleton.mp hs]
    exact ⟨rfl, rfl⟩

/-- Only a segment with an offset inside that no edit has named is cut, so nothing was inserted
there. -/
theorem split (h : Adorned inserted text.size w)
    (hlayout : Layout text replaced moved named order w l) (hi : Text.isBoundary i text = true)
    (hnone : ∀ k ∉ named, ∀ side, inserted side k = []) :
    Adorned inserted text.size (w.split i) where
  lead := by rw [Weave.split_lead, h.lead]
  trail := by rw [Weave.split_trail, h.trail]
  around r hr := by
    rw [Weave.split_segments] at hr
    obtain ⟨s, hs, hrs⟩ := List.mem_flatMap.mp hr
    obtain ⟨hlead, htrail⟩ := h.around s hs
    cases hc : s.straddles i with
    | false =>
      rw [Segment.cut_of_not_straddles hc, List.mem_singleton] at hrs
      rw [hrs]
      exact ⟨hlead, htrail⟩
    | true =>
      have hempty := hnone i fun hin => by
        have := hlayout.clear i hin s (hlayout.shows.mem.mpr hs)
        rw [hc] at this
        cases this
      obtain ⟨x, y, ht, hx, hy, he⟩ :=
        Segment.exists_parts hlayout.shows.tiles hs (by simpa using hi) hc
      rw [Segment.cut_eq ht hx hy he, List.mem_cons, List.mem_singleton] at hrs
      rcases hrs with rfl | rfl
      · refine ⟨hlead, ?_⟩
        change [] = inserted .left (s.start + Text.size x)
        rw [he, hempty]
      · refine ⟨(hempty .right).symm, ?_⟩
        change s.trail = inserted .left (i + Text.size y)
        rw [htrail, Segment.stop, ht, Text.size_append, ← Nat.add_assoc, he]

theorem split_span {s : Span} (h : Adorned inserted text.size w)
    (hlayout : Layout text replaced moved named order w l) (hin : History.InText text s)
    (hfree : ∀ r ∈ replaced, ¬ r.1.Meets s.start s.start)
    (hnone : ∀ k ∉ named, ∀ side, inserted side k = []) :
    Adorned inserted text.size ((w.split s.start).split s.stop) := by
  refine (h.split hlayout hin.2.1 hnone).split (hlayout.split hin.2.1 hfree) hin.2.2 ?_
  exact fun k hk => hnone k fun hin => hk (List.mem_append_left _ hin)

/-- What stands for the segments does not matter. -/
theorem modify (h : Adorned inserted size w) (which : Segment → Bool)
    (hf : ∀ s, (f s).start = s.start ∧ (f s).text = s.text ∧ (f s).lead = s.lead ∧
      (f s).trail = s.trail) : Adorned inserted size (w.modify which f) where
  lead := h.lead
  trail := h.trail
  around r hr := by
    obtain ⟨s, hs, rfl⟩ := List.mem_map.mp hr
    have hstop : (f s).stop = s.stop := by
      rw [Segment.stop, (hf s).1, (hf s).2.1]
      rfl
    split
    · rw [(hf s).1, (hf s).2.2.1, (hf s).2.2.2, hstop]
      exact h.around s hs
    · exact h.around s hs

/-- The order of the segments does not matter either. -/
theorem relocate (h : Adorned inserted size (((w.split s.start).split s.stop).split i))
    (hw : w.relocate s i = some w') : Adorned inserted size w' := by
  obtain ⟨b, c, -, -, rfl⟩ := Weave.relocate_eq_some_iff.mp hw
  exact ⟨h.lead, h.trail, h.around⟩

/-- A text is inserted at the end of the segments that reach its offset, or at an end of the whole
text. -/
theorem insert (h : Adorned inserted text.size (w.split i)) (ht : Tiles 0 w.segments text)
    (hi : Text.isBoundary i text = true) (side : Side) (place : Place) (content : Text) :
    Adorned
      (fun side' k => (Edit.insert side place i content).insertedAt side' k (inserted side' k))
      text.size (w.insert side place i content) := by
  have hsize : (w.split i).size = text.size := by rw [Weave.size, (ht.split hi).text_eq]
  rw [Weave.insert_eq ht hi]
  refine ⟨?_, ?_, fun r hr => ?_⟩
  · rw [Weave.attach, h.lead]
  · rw [Weave.attach, hsize, h.trail]
  · obtain ⟨s, hs, rfl⟩ := List.mem_map.mp hr
    obtain ⟨hlead, htrail⟩ := h.around s hs
    rw [Segment.attach, hlead, htrail]
    exact ⟨rfl, rfl⟩

end Adorned

variable {text : Text}

/-- After a tidy run without removals, the inserted texts stand around the segments. -/
theorem Accepted.adorned (htext : text ≠ []) (run : Accepted text edits o) (hun : Unnested edits)
    (htidy : Tidy text edits) (hkeep : ∀ s, .remove s ∉ edits) :
    Adorned (insertedAt edits) text.size o.weave := by
  induction run with
  | start => exact .ofText text
  | @step edits o e w run allowed made ih =>
    obtain ⟨l, h⟩ := run.layout htext hun.append_left htidy.append_left
    have hadorned := ih hun.append_left htidy.append_left fun s hs =>
      hkeep s (List.mem_append_left _ hs)
    have hnone : ∀ k ∉ offsets edits, ∀ side, insertedAt edits side k = [] := fun k hk side =>
      insertedAt_eq_nil hk side
    cases e with
    | insert side place i content =>
      have hi := allowed.1.2.1
      have hinsert := (hadorned.split h hi hnone).insert h.shows.tiles hi side place content
      have hconcat : insertedAt (edits ++ [.insert side place i content]) = fun side' k =>
          (Edit.insert side place i content).insertedAt side' k (insertedAt edits side' k) :=
        funext fun _ => funext fun _ => insertedAt_concat ..
      obtain rfl := Option.some.inj made
      rw [hconcat]
      exact hinsert
    | update s content =>
      have hne := allowed.2.1
      have he : Edit.replacement? (.update s content) = some (s, content) := if_neg hne
      obtain ⟨hin, hs, hfree⟩ := run.allows_replacement allowed he
      obtain ⟨p, u, q, h', hu⟩ := h.split_segment hin hs hfree fun k hk hk' =>
        htidy.last.1 ⟨_, he, k, hk, hk'⟩
      have hreplace := h'.shows.replace_eq (f := fun r => { r with content := some content })
        (s := u) (by simp) (congrArg Span.start hu) (congrArg Span.stop hu)
      rw [Weave.apply, if_neg hne, Weave.update, hreplace] at made
      obtain rfl := Option.some.inj made
      rw [insertedAt_of_not_insert edits (by simp)]
      exact (hadorned.split_span h hin (fun r hr => (Span.not_meets_ends (hfree r hr) hs).1)
        hnone).modify _ fun r => ⟨rfl, rfl, rfl, rfl⟩
    | remove s => exact absurd (List.mem_append_right _ (List.mem_singleton.mpr rfl)) (hkeep s)
    | relocate s i =>
      rw [insertedAt_of_not_insert edits (by simp)]
      dsimp only [Weave.apply] at made
      split at made
      · obtain rfl := Option.some.inj made
        exact hadorned
      · rename_i hne
        have he : Edit.move? (.relocate s i) = some (s, i) := if_neg hne
        obtain ⟨hin, -, htarget, -, hfree, -⟩ := run.allows_move allowed he
        obtain ⟨l', h'⟩ := h.split_span hin fun r hr => ⟨(hfree r hr).1, (hfree r hr).2.1⟩
        have hspan := hadorned.split_span h hin (fun r hr => (hfree r hr).1) hnone
        exact (hspan.split h' htarget.2.1 fun k hk => hnone k fun hin =>
          hk (List.mem_append_left _ hin)).relocate made

end GadgetBuild.Overlay
