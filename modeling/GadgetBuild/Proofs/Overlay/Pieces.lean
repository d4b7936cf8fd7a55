import GadgetBuild.Proofs.Overlay.Emission
import GadgetBuild.Proofs.Overlay.Insertions
import GadgetBuild.Proofs.Overlay.Progress

/-!
The rendering of edits without segments and links: the text is cut at all offsets that edits name,
and each piece is shown with what was inserted at its ends. An overlay renders so, when the edits
keep out of each other's way.
-/

namespace GadgetBuild.Overlay

/-- Where the pieces of the text start. -/
def cuts (text : Text) (edits : List Edit) : List Nat :=
  (List.range text.size).filter fun k => k = 0 ∨ k ∈ offsets edits

def pieces (text : Text) (edits : List Edit) : List Span :=
  List.zipWith Span.mk (cuts text edits) ((cuts text edits).tail ++ [text.size])

/-- What is shown for a piece of the text. -/
def pieceBody (text : Text) (edits : List Edit) (p : Span) : Text :=
  ((replacements edits).lookup p).getD (text.slice p.start p.stop)

def renderPiece (text : Text) (edits : List Edit) (p : Span) : Text :=
  insertedAt edits .right p.start ++ pieceBody text edits p ++ insertedAt edits .left p.stop

def plainRender (text : Text) (edits : List Edit) : Text :=
  insertedAt edits .left 0 ++
    (placed Span.start (moves edits) text.size (pieces text edits)).flatMap
      (renderPiece text edits) ++
    insertedAt edits .right text.size

/-- The offset at which an edit puts something. -/
def Edit.target? : Edit → Option Nat
  | .insert _ _ i _ => some i
  | .relocate s i => if s.start = s.stop then none else some i
  | .update _ _ | .remove _ => none

/-- Nothing is put strictly inside a replaced span. -/
def Unpierced (edits : List Edit) : Prop :=
  ∀ r ∈ replacements edits, ∀ i ∈ edits.filterMap Edit.target?, ¬ r.1.Encloses i

instance : Decidable (Unpierced edits) :=
  inferInstanceAs (Decidable (∀ r ∈ replacements edits, ∀ i ∈ edits.filterMap _, ¬ _))

theorem Unpierced.append_left (h : Unpierced (first ++ next)) : Unpierced first := by
  intro r hr i hi
  refine h r (by simp [hr]) i ?_
  rw [List.filterMap_append]
  exact List.mem_append_left _ hi

section Placed

variable {α β : Type} {position : α → Nat} {position' : β → Nat}

theorem arrivals_map (g : α → β) (hg : ∀ a, position' (g a) = position a)
    (moved : List (Span × Nat)) (parts : List α) (i : Nat) :
    arrivals position' moved (parts.map g) i = (arrivals position moved parts i).map g := by
  rw [arrivals, arrivals, List.filter_map]
  refine congrArg _ (List.filter_congr fun a _ => ?_)
  exact decide_eq_decide.mpr (by rw [hg])

/-- Where a part goes is a matter of its position. -/
theorem placed_map (g : α → β) (hg : ∀ a, position' (g a) = position a)
    (moved : List (Span × Nat)) (stop : Nat) (parts : List α) :
    placed position' moved stop (parts.map g) = (placed position moved stop parts).map g := by
  have hslot : ∀ a, slot position' moved (parts.map g) (g a) =
      (slot position moved parts a).map g := by
    intro a
    rw [slot, slot, arrivals_map g hg, hg, List.map_append]
    split <;> rfl
  rw [placed, placed, arrivals_map g hg, List.map_append, List.map_flatMap, List.flatMap_map]
  simp only [hslot]

theorem flatMap_filter (p : α → Bool) (f : α → List β) (l : List α) :
    (l.filter p).flatMap f = l.flatMap fun a => if p a then f a else [] := by
  induction l with
  | nil => rfl
  | cons a l ih => cases h : p a <;> simp [h, ih]

theorem mem_placed {parts : List α} (h : a ∈ placed position moved stop parts) : a ∈ parts := by
  have harrivals : ∀ i, arrivals position moved parts i ⊆ parts := fun i =>
    List.filter_subset_self _
  rcases List.mem_append.mp h with h | h
  · obtain ⟨b, hb, hab⟩ := List.mem_flatMap.mp h
    rcases List.mem_append.mp hab with hab | hab
    · exact harrivals _ hab
    · split at hab
      · cases hab
      · exact List.mem_singleton.mp hab ▸ hb
  · exact harrivals _ h

end Placed

section Bytes

variable {text : Text} {segments : List Segment} {moved : List (Span × Nat)}

/-- The first byte of a segment, and those that are strictly inside. -/
theorem Segment.exists_inside {s : Segment} (h : s.start < s.stop) :
    ∃ inside, s.bytes = s.start :: inside ∧ ∀ k ∈ inside, s.straddles k = true := by
  obtain ⟨inside, hbytes⟩ := s.exists_bytes h
  refine ⟨inside, hbytes, fun k hk => Segment.straddles_iff.mpr ?_⟩
  have hin : s.start ≤ k ∧ k < s.stop :=
    Segment.mem_bytes.mp (hbytes ▸ List.mem_cons_of_mem s.start hk)
  have hnodup : s.bytes.Nodup := List.nodup_range'
  rw [hbytes, List.nodup_cons] at hnodup
  have hne : k ≠ s.start := fun he => hnodup.1 (he ▸ hk)
  omega

/-- A segment that no end of a span straddles is in the span or out of it as a whole. -/
theorem Segment.has_iff {s : Segment} {span : Span} (hstart : s.straddles span.start = false)
    (hstop : s.straddles span.stop = false) (hk : k ∈ s.bytes) :
    span.Has k ↔ span.Has s.start := by
  have hbounds : s.start ≤ k ∧ k < s.stop := Segment.mem_bytes.mp hk
  have := Segment.not_straddles_iff.mp hstart
  have := Segment.not_straddles_iff.mp hstop
  unfold Span.Has
  omega

/-- No move tears a segment. -/
def Untorn (moved : List (Span × Nat)) (segments : List Segment) : Prop :=
  ∀ k, Seam moved k → ∀ s ∈ segments, s.straddles k = false

namespace Untorn

theorem has_iff (h : Untorn moved segments) (hs : s ∈ segments) (hm : m ∈ moved)
    (hk : k ∈ s.bytes) : m.1.Has k ↔ m.1.Has s.start :=
  Segment.has_iff (h _ ⟨m, hm, Or.inl rfl⟩ s hs) (h _ ⟨m, hm, Or.inr (Or.inl rfl)⟩ s hs) hk

theorem leaves_iff (h : Untorn moved segments) (hs : s ∈ segments) (hk : k ∈ s.bytes) :
    Leaves moved k ↔ Leaves moved s.start :=
  exists_congr fun _ => and_congr_right fun hm => h.has_iff hs hm hk

theorem arrivals_bytes (h : Untorn moved segments) (i : Nat) :
    arrivals id moved (segments.flatMap Segment.bytes) i =
      (arrivals Segment.start moved segments i).flatMap Segment.bytes := by
  rw [arrivals, arrivals, List.filter_flatMap, flatMap_filter]
  refine List.flatMap_congr fun s hs => ?_
  have hsame : ∀ k ∈ s.bytes, (∃ m ∈ moved, m.2 = i ∧ m.1.Has k) ↔
      ∃ m ∈ moved, m.2 = i ∧ m.1.Has s.start := fun k hk =>
    exists_congr fun _ => and_congr_right fun hm => and_congr_right fun _ => h.has_iff hs hm hk
  split
  · rename_i hgoes
    refine List.filter_eq_self.mpr fun k hk => decide_eq_true ?_
    exact (hsame k hk).mpr (of_decide_eq_true hgoes)
  · rename_i hstays
    refine List.filter_eq_nil_iff.mpr fun k hk hgoes => hstays (decide_eq_true ?_)
    exact (hsame k hk).mp (of_decide_eq_true hgoes)

/-- Nothing arrives inside a segment. -/
theorem arrivals_inside (h : Untorn moved segments) (hs : s ∈ segments) (hk : s.straddles k = true)
    (parts : List Nat) : arrivals id moved parts k = [] := by
  refine List.filter_eq_nil_iff.mpr fun p _ hgoes => ?_
  obtain ⟨m, hm, rfl, -⟩ := of_decide_eq_true hgoes
  have := h m.2 ⟨m, hm, Or.inr (Or.inr rfl)⟩ s hs
  rw [hk] at this
  cases this

theorem slot_bytes (h : Untorn moved segments) (hs : s ∈ segments) (hsolid : s.start < s.stop) :
    s.bytes.flatMap (slot id moved (segments.flatMap Segment.bytes)) =
      (slot Segment.start moved segments s).flatMap Segment.bytes := by
  obtain ⟨inside, hbytes, hinside⟩ := Segment.exists_inside hsolid
  have hslot : ∀ k ∈ inside, slot id moved (segments.flatMap Segment.bytes) k =
      if Leaves moved s.start then [] else [k] := by
    intro k hk
    rw [slot, id_eq, h.arrivals_inside hs (hinside k hk), List.nil_append]
    simp only [h.leaves_iff hs (hbytes ▸ List.mem_cons_of_mem s.start hk)]
  rw [hbytes, List.flatMap_cons, List.flatMap_congr hslot, slot, slot, id_eq, h.arrivals_bytes,
    List.flatMap_append, List.append_assoc]
  congr 1
  split <;> simp [hbytes]

/-- Moves put the bytes of segments where they put the segments. -/
theorem placedBytes_eq (h : Untorn moved segments) (htiles : Tiles 0 segments text) :
    placedBytes moved text.size =
      (placed Segment.start moved text.size segments).flatMap Segment.bytes := by
  have hrange : List.range text.size = segments.flatMap Segment.bytes := by
    rw [htiles.bytes_eq, List.range_eq_range']
  rw [placedBytes, hrange, placed, placed, List.flatMap_append, h.arrivals_bytes,
    List.flatMap_assoc, List.flatMap_assoc]
  congr 1
  exact List.flatMap_congr fun s hs => h.slot_bytes hs (htiles.solid s hs)

end Untorn

/-- Of segments of a text, their bytes tell which they are. -/
theorem Tiles.eq_of_bytes {l l' : List Segment} (h : Tiles a segments text) (hl : l ⊆ segments)
    (hl' : l' ⊆ segments) (he : l.flatMap Segment.bytes = l'.flatMap Segment.bytes) : l = l' := by
  induction l generalizing l' with
  | nil =>
    cases l' with
    | nil => rfl
    | cons r l' =>
      obtain ⟨bytes, hr⟩ := r.exists_bytes (h.solid r (hl' (by simp)))
      rw [List.flatMap_cons, hr] at he
      cases he
  | cons s l ih =>
    have hs : s ∈ segments := hl (by simp)
    obtain ⟨bytes, hbytes⟩ := s.exists_bytes (h.solid s hs)
    cases l' with
    | nil =>
      rw [List.flatMap_cons, hbytes] at he
      cases he
    | cons r l' =>
      have hr : r ∈ segments := hl' (by simp)
      obtain ⟨bytes', hbytes'⟩ := r.exists_bytes (h.solid r hr)
      have hhead : s.start = r.start := by
        rw [List.flatMap_cons, List.flatMap_cons, hbytes, hbytes'] at he
        exact (List.cons.inj he).1
      obtain rfl := h.eq_of_start hs hr hhead
      rw [List.flatMap_cons, List.flatMap_cons] at he
      rw [ih (fun u hu => hl (by simp [hu])) (fun u hu => hl' (by simp [hu]))
        (List.append_cancel_left he)]

/-- The spans of segments that tile a text. -/
theorem Tiles.map_span (h : Tiles a segments text) : segments.map Segment.span =
    List.zipWith Span.mk (segments.map (·.start))
      ((segments.map (·.start)).tail ++ [a + text.size]) := by
  induction segments generalizing a text with
  | nil => rfl
  | cons s segments ih =>
    obtain ⟨rfl, _, rest, rfl, htiles⟩ := h
    have hsize : s.start + Text.size (s.text ++ rest) = s.stop + Text.size rest := by
      rw [Text.size_append, ← Nat.add_assoc]
      rfl
    rw [hsize, List.map_cons, ih htiles]
    cases segments with
    | nil =>
      obtain rfl : rest = [] := htiles
      rfl
    | cons r segments => 
      have hr : r.start = s.stop := htiles.1
      simp [Segment.span, hr]

/-- The segments start where the pieces do, if they start at named offsets only and no named offset
is inside of one. -/
theorem Tiles.map_start {named : List Nat} (h : Tiles 0 segments text)
    (hstarts : ∀ s ∈ segments, s.start = 0 ∨ s.start ∈ named)
    (hclear : ∀ k ∈ named, ∀ s ∈ segments, s.straddles k = false) :
    segments.map (·.start) = (List.range text.size).filter fun k => k = 0 ∨ k ∈ named := by
  rw [List.range_eq_range', ← h.bytes_eq, List.filter_flatMap, List.map_eq_flatMap]
  refine List.flatMap_congr fun s hs => ?_
  obtain ⟨inside, hbytes, hinside⟩ := Segment.exists_inside (h.solid s hs)
  have hout : ∀ k ∈ inside, ¬ (k = 0 ∨ k ∈ named) := by
    rintro k hk (rfl | hin)
    · have := Segment.straddles_iff.mp (hinside 0 hk)
      omega
    · have := hclear k hin s hs
      rw [hinside k hk] at this
      cases this
  have hnone : inside.filter (fun k => k = 0 ∨ k ∈ named) = [] :=
    List.filter_eq_nil_iff.mpr fun k hk => by simpa using hout k hk
  rw [hbytes, List.filter_cons_of_pos (by simpa using hstarts s hs), hnone]

end Bytes

variable {text : Text}

namespace Accepted

/-- A move leads out of its span. -/
theorem of_mem_moves (run : Accepted text edits o) (hm : (s, i) ∈ moves edits) :
    s.start < s.stop ∧ ¬ (s.start ≤ i ∧ i ≤ s.stop) := by
  induction run with
  | start => cases hm
  | step run allowed made ih =>
    rw [moves_append, List.mem_append, mem_moves_singleton] at hm
    rcases hm with hm | he
    · exact ih hm
    · obtain ⟨_, hs, _, hout, _⟩ := run.allows_move allowed he
      exact ⟨hs, hout⟩

/-- Moves with hulls apart are not nested. -/
theorem unnested (run : Accepted text edits o) (hapart : HullsApart edits) : Unnested edits := by
  intro m hm n hn hin
  rcases hapart.eq_or_remote hm hn with rfl | hremote
  · have := (run.of_mem_moves hm).2
    omega
  · dsimp only [Remote, hull] at hremote
    omega

/-- The next span to be replaced has no named offset inside: the ends of another one would meet it,
and those of a moved one would cross it. -/
theorem not_overruns (run : Accepted text edits o) (allowed : o.history.Allows text e)
    (hun : Unpierced (edits ++ [e])) : ¬ Overruns edits e := by
  rintro ⟨⟨r, content⟩, he, k, hk, hlo, hhi⟩
  dsimp only at hlo hhi
  obtain ⟨-, hr, hfree⟩ := run.allows_replacement allowed he
  have hpierced : ∀ f ∈ edits, f.target? ≠ some k := fun f hf ht =>
    hun (r, content) (by simp [mem_replacements_singleton, Option.mem_def.mp he]) k
      (List.mem_filterMap.mpr ⟨f, by simp [hf], ht⟩) ⟨hlo, hhi⟩
  obtain ⟨f, hf, hkf⟩ := List.mem_flatMap.mp hk
  rcases f.kinds with ⟨s, c, hs, -, ho⟩ | ⟨s, i, hm, -, ho⟩ | ⟨side, place, i, c, rfl⟩ |
      ⟨-, -, ho, -⟩
  · have hin : (s, c) ∈ replacements edits := List.mem_filterMap.mpr ⟨f, hf, hs⟩
    have hsolid := (run.of_mem_replacements hin).2
    have hnot : ¬ s.Meets r.start r.stop := hfree _ hin
    simp only [ho, List.mem_cons, List.not_mem_nil, or_false] at hkf
    unfold Span.Meets at hnot
    omega
  · have hin : (s, i) ∈ moves edits := List.mem_filterMap.mpr ⟨f, hf, hm⟩
    have hsolid := (run.of_mem_moves hin).1
    have hnested : s.Covers r ∨ ¬ s.Shares r := run.covers_or_clear allowed he (s, i) hin
    have htarget : i ≠ k := by
      rintro rfl
      obtain ⟨hne, rfl⟩ := Edit.move?_eq_some_iff.mp hm
      exact hpierced _ hf (if_neg hne)
    simp only [ho, List.mem_cons, List.not_mem_nil, or_false] at hkf
    unfold Span.Covers Span.Shares Span.Meets at hnested
    omega
  · obtain rfl : k = i := by simpa [Edit.offsets] using hkf
    exact hpierced _ hf rfl
  · rw [ho] at hkf
    cases hkf

/-- Edits that keep out of each other's way are tidy in whatever order. -/
theorem tidy (htext : text ≠ []) (run : Accepted text edits o) (hapart : HullsApart edits)
    (hun : Unpierced edits) : Tidy text edits := by
  induction run with
  | start => exact .nil
  | @step edits o e w run allowed made ih =>
    have htidy := ih hapart.append_left hun.append_left
    refine htidy.concat (run.not_overruns allowed hun) ?_
    rintro ⟨⟨s, i⟩, he, hplace⟩
    obtain ⟨hin, hs, htarget, hout, _⟩ := run.allows_move allowed he
    obtain ⟨l, h⟩ := run.layout htext (run.unnested hapart.append_left) htidy
    have hnodup := h.nodup
    rw [run.arrangement_eq hapart.append_left] at hplace hnodup
    exact not_infix_placedBytes hs (Text.isBoundary_le hin.2.2) (Text.isBoundary_le htarget.2.1)
      hout (hapart.remote he) hnodup hplace

end Accepted

namespace Layout

variable {named order : List Nat} {moved : List (Span × Nat)} {w : Weave} {l : List Segment}

theorem map_span_segments
    (h : Layout text (replacements edits) (moves edits) (offsets edits) order w l) :
    w.segments.map Segment.span = pieces text edits := by
  have hstart := h.shows.tiles.map_start (fun s hs => h.starts s (h.shows.mem.mpr hs))
    fun k hk s hs => h.clear k hk s (h.shows.mem.mpr hs)
  rw [h.shows.tiles.map_span, hstart, Nat.zero_add]
  rfl

/-- A segment is replaced as a piece is. -/
theorem lookup_span (h : Layout text (replacements edits) moved named order w l) (hs : s ∈ l) :
    (replacements edits).lookup s.span = s.content := by
  cases hfound : (replacements edits).lookup s.span with
  | none =>
    cases hc : s.content with
    | none => rfl
    | some content =>
      have hne := List.lookup_eq_none_iff.mp hfound _
        ((h.replaced s.span content).mpr ⟨s, hs, rfl, hc⟩)
      simp at hne
  | some content =>
    obtain ⟨before, behind, hsplit, -⟩ := List.lookup_eq_some_iff.mp hfound
    obtain ⟨u, hu, hspan, hc⟩ := (h.replaced s.span content).mp (by simp [hsplit])
    rw [← hc, h.shows.eq_of_start hu hs (congrArg Span.start hspan)]

theorem body_eq (h : Layout text (replacements edits) moved named order w l) (hs : s ∈ l) :
    s.body = pieceBody text edits s.span := by
  obtain ⟨p, q, ht, hp⟩ := h.shows.tiles.exists_split (h.shows.mem.mp hs)
  rw [Nat.zero_add] at hp
  have hslice : text.slice s.start s.stop = s.text := by
    rw [ht, ← List.append_assoc, Segment.stop, ← hp, Text.slice_size_append]
  rw [pieceBody, h.lookup_span hs, Segment.body]
  exact congrArg _ hslice.symm

/-- No move tears the segments, whose borders are all named. -/
theorem untorn
    (h : Layout text (replacements edits) (moves edits) (offsets edits) order w l) :
    Untorn (moves edits) w.segments := by
  rintro k ⟨⟨m, i⟩, hm, hk⟩ s hs
  obtain ⟨e, he, hem⟩ := List.mem_filterMap.mp hm
  refine h.clear k (List.mem_flatMap.mpr ⟨e, he, ?_⟩) s (h.shows.mem.mpr hs)
  obtain ⟨hne, rfl⟩ := Edit.move?_eq_some_iff.mp hem
  simpa [Edit.offsets, hne] using hk

end Layout

/-- Insertions, updates and moves that keep out of each other's way are rendered piece by piece. -/
theorem render_eq_plainRender (htext : text ≠ []) (happlied : (ofText text).applyAll edits = .ok o)
    (hkeep : ∀ s, .remove s ∉ edits) (hun : Unpierced edits) (hapart : HullsApart edits) :
    o.render = some (plainRender text edits) := by
  have run := accepted_of_applyAll happlied
  have htidy := run.tidy htext hapart hun
  have hunnested := run.unnested hapart
  obtain ⟨l, h⟩ := run.layout htext hunnested htidy
  have hadorned := run.adorned htext hunnested htidy hkeep
  have huntorn := h.untorn
  have hl : l = placed Segment.start (moves edits) text.size o.weave.segments := by
    refine h.shows.tiles.eq_of_bytes h.shows.perm.subset (fun s hs => mem_placed hs) ?_
    rw [h.order, run.arrangement_eq hapart, huntorn.placedBytes_eq h.shows.tiles]
  have hspans : placed Span.start (moves edits) text.size (pieces text edits) =
      l.map Segment.span := by
    rw [hl, ← h.map_span_segments]
    exact placed_map Segment.span (fun _ => rfl) _ _ _
  have hrender : ∀ s ∈ l, s.render = renderPiece text edits s.span := by
    intro s hs
    obtain ⟨hlead, htrail⟩ := hadorned.around s (h.shows.mem.mp hs)
    rw [Segment.render, hlead, htrail, h.body_eq hs]
    rfl
  rw [Overlay.render, Weave.render, h.shows.shown_eq, Option.map_some, hadorned.lead,
    hadorned.trail, List.flatMap_congr hrender, plainRender, hspans, List.flatMap_map]

/-- Two moves, with an update and insertions in what they move and at their targets. -/
def apartEdits : List Edit :=
  [.insert .right .back 2 ['<'], .relocate ⟨2, 4⟩ 7, .insert .left .back 4 ['>'],
    .update ⟨2, 3⟩ ['X', 'Y'], .insert .left .front 4 [')'], .relocate ⟨10, 12⟩ 9,
    .insert .right .front 7 ['+'], .insert .left .back 0 ['^'], .insert .right .back 12 ['$']]

theorem apartEdits_render : ∃ o, (ofText "abcdefghijkl".toList).applyAll apartEdits = .ok o ∧
    "abcdefghijkl".toList ≠ [] ∧ (∀ s, .remove s ∉ apartEdits) ∧ Unpierced apartEdits ∧
      HullsApart apartEdits ∧ o.render = some (plainRender "abcdefghijkl".toList apartEdits) ∧
      o.render = some "^abefg<XYd)>+hiklj$".toList := by
  have htext : "abcdefghijkl".toList ≠ [] := by decide
  have hkeep : ∀ s, .remove s ∉ apartEdits := by simp [apartEdits]
  have hun : Unpierced apartEdits := by decide +kernel
  have hapart : HullsApart apartEdits := by decide +kernel
  obtain ⟨o, ho⟩ : ∃ o, (ofText "abcdefghijkl".toList).applyAll apartEdits = .ok o := ⟨_, rfl⟩
  have hrender := render_eq_plainRender htext ho hkeep hun hapart
  refine ⟨o, ho, htext, hkeep, hun, hapart, hrender, hrender.trans ?_⟩
  decide +kernel

end GadgetBuild.Overlay
