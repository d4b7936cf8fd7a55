import Mathlib.Data.List.Pairwise
import GadgetBuild.Proofs.Overlay.Steps

/-!
Where moves put the parts of a text, said without the order of the moves: the parts of a moved span
come right before the part at its target. Moves of which no two hulls meet arrange the bytes of the
text in that way.
-/

namespace GadgetBuild.Overlay

/-- From the moved span to its target. -/
def hull (m : Span × Nat) : Span :=
  ⟨min m.1.start m.2, max m.1.stop m.2⟩

/-- The hulls of two moves have no offset in common, not even at their ends. -/
def Remote (m n : Span × Nat) : Prop :=
  (hull m).stop < (hull n).start ∨ (hull n).stop < (hull m).start

instance : Decidable (Remote m n) :=
  inferInstanceAs (Decidable (_ ∨ _))

section Placed

variable {α : Type} (position : α → Nat)

/-- The part lies in a span that is moved. -/
def Leaves (moved : List (Span × Nat)) (k : Nat) : Prop :=
  ∃ m ∈ moved, m.1.Has k

instance : Decidable (Leaves moved k) :=
  inferInstanceAs (Decidable (∃ m ∈ moved, _))

/-- The parts that a move takes to an offset. -/
def arrivals (moved : List (Span × Nat)) (parts : List α) (i : Nat) : List α :=
  parts.filter fun p => ∃ m ∈ moved, m.2 = i ∧ m.1.Has (position p)

/-- What comes in the place of a part. -/
def slot (moved : List (Span × Nat)) (parts : List α) (p : α) : List α :=
  arrivals position moved parts (position p) ++ if Leaves moved (position p) then [] else [p]

/-- The parts of a text up to `stop`, with those of moved spans before the part at the target, or
behind all others. -/
def placed (moved : List (Span × Nat)) (stop : Nat) (parts : List α) : List α :=
  parts.flatMap (slot position moved parts) ++ arrivals position moved parts stop

end Placed

/-- The bytes of a text as moves put them. -/
abbrev placedBytes (moved : List (Span × Nat)) (n : Nat) : List Nat :=
  placed id moved n (List.range n)

theorem range_split (hlo : lo ≤ hi) (hhi : hi ≤ n) : List.range n =
    List.range' 0 lo ++ (List.range' lo (hi - lo) ++ List.range' hi (n - hi)) := by
  have hfirst := List.range'_append_1 (s := 0) (m := lo) (n := n - lo)
  have hrest := List.range'_append_1 (s := lo) (m := hi - lo) (n := n - hi)
  rw [Nat.zero_add, Nat.add_sub_of_le (by omega)] at hfirst
  rw [Nat.add_sub_of_le hlo, show hi - lo + (n - hi) = n - lo by omega] at hrest
  rw [hrest, hfirst, List.range_eq_range']

/-- No move leads from or to an offset between the two. -/
def Clear (moved : List (Span × Nat)) (lo hi : Nat) : Prop :=
  ∀ m ∈ moved, (hull m).stop < lo ∨ hi < (hull m).start

theorem Clear.not_leaves (h : Clear moved lo hi) (hlo : lo ≤ k) (hhi : k ≤ hi) :
    ¬ Leaves moved k := by
  rintro ⟨m, hm, hstart, hstop⟩
  have := h m hm
  dsimp only [hull] at this
  omega

theorem Clear.arrivals_eq (h : Clear moved lo hi) (hlo : lo ≤ k) (hhi : k ≤ hi) (parts : List Nat) :
    arrivals id moved parts k = [] := by
  refine List.filter_eq_nil_iff.mpr fun p _ => ?_
  rw [decide_eq_true_eq]
  rintro ⟨m, hm, rfl, -⟩
  have := h m hm
  dsimp only [hull] at this
  omega

theorem Clear.slot_eq (h : Clear moved lo hi) (hlo : lo ≤ k) (hhi : k ≤ hi) (parts : List Nat) :
    slot id moved parts k = [k] := by
  rw [slot, id_eq, h.arrivals_eq hlo hhi, if_neg (h.not_leaves hlo hhi), List.nil_append]

theorem Clear.flatMap_slot (h : Clear moved lo hi) (hlo : lo ≤ a) (hhi : a + len ≤ hi)
    (parts : List Nat) :
    (List.range' a len).flatMap (slot id moved parts) = List.range' a len := by
  have hslot : ∀ k ∈ List.range' a len, slot id moved parts k = [k] := by
    intro k hk
    rw [List.mem_range'_1] at hk
    exact h.slot_eq (by omega) (by omega) parts
  rw [List.flatMap_congr hslot, List.flatMap_singleton']

/-- What comes before an offset. -/
def bytesBefore (moved : List (Span × Nat)) (n lo : Nat) : List Nat :=
  (List.range' 0 lo).flatMap (slot id moved (List.range n))

/-- What comes from an offset on, less what moves take to it. -/
def bytesBehind (moved : List (Span × Nat)) (n hi : Nat) : List Nat :=
  if hi < n then
    (if Leaves moved hi then [] else [hi]) ++
      ((List.range' (hi + 1) (n - (hi + 1))).flatMap (slot id moved (List.range n)) ++
        arrivals id moved (List.range n) n)
  else []

theorem placedBytes_eq (hlo : lo ≤ hi) (hhi : hi ≤ n) : placedBytes moved n =
    bytesBefore moved n lo ++ ((List.range' lo (hi - lo)).flatMap (slot id moved (List.range n)) ++
      (arrivals id moved (List.range n) hi ++ bytesBehind moved n hi)) := by
  have hbehind : (List.range' hi (n - hi)).flatMap (slot id moved (List.range n)) ++
      arrivals id moved (List.range n) n =
        arrivals id moved (List.range n) hi ++ bytesBehind moved n hi := by
    unfold bytesBehind
    split
    · rename_i hlt
      rw [show n - hi = n - (hi + 1) + 1 by omega, List.range'_succ, List.flatMap_cons, slot]
      simp only [id_eq, List.append_assoc]
    · obtain rfl : hi = n := by omega
      simp
  rw [← hbehind, bytesBefore, placedBytes, placed]
  generalize slot id moved (List.range n) = f
  rw [range_split hlo hhi]
  simp only [List.flatMap_append, List.append_assoc]

/-- A hull that no other move meets stands in a row. -/
theorem Clear.placedBytes_eq (h : Clear moved lo hi) (hlo : lo ≤ hi) (hhi : hi ≤ n) :
    placedBytes moved n =
      bytesBefore moved n lo ++ (List.range' lo (hi - lo) ++ bytesBehind moved n hi) := by
  rw [Overlay.placedBytes_eq hlo hhi, h.flatMap_slot (Nat.le_refl lo) (by omega),
    h.arrivals_eq hlo (Nat.le_refl hi), List.nil_append]

theorem mem_slot (h : k ∈ slot id moved parts j) :
    k = j ∨ ∃ m ∈ moved, m.2 = j ∧ m.1.Has k := by
  rcases List.mem_append.mp h with h | h
  · exact Or.inr (by simpa using (List.mem_filter.mp h).2)
  · split at h
    · cases h
    · exact Or.inl (List.mem_singleton.mp h)

/-- Nothing of a hull comes before or behind it. -/
theorem Clear.not_mem_before (h : Clear moved lo hi) (hlo : lo ≤ k) (hhi : k ≤ hi) :
    k ∉ bytesBefore moved n lo := by
  intro hk
  obtain ⟨j, hj, hkj⟩ := List.mem_flatMap.mp hk
  rw [List.mem_range'_1] at hj
  rcases mem_slot hkj with rfl | ⟨m, hm, _, hhas⟩
  · omega
  · exact h.not_leaves hlo hhi ⟨m, hm, hhas⟩

theorem Clear.not_mem_behind (h : Clear moved lo hi) (hlo : lo ≤ k) (hhi : k < hi) :
    k ∉ bytesBehind moved n hi := by
  have hout : ¬ ∃ m ∈ moved, m.1.Has k := h.not_leaves hlo (Nat.le_of_lt hhi)
  intro hk
  unfold bytesBehind at hk
  split at hk
  · simp only [List.mem_append] at hk
    rcases hk with hk | hk | hk
    · split at hk
      · cases hk
      · have := List.mem_singleton.mp hk
        omega
    · obtain ⟨j, hj, hkj⟩ := List.mem_flatMap.mp hk
      rw [List.mem_range'_1] at hj
      rcases mem_slot hkj with rfl | ⟨m, hm, _, hhas⟩
      · omega
      · exact hout ⟨m, hm, hhas⟩
    · obtain ⟨m, hm, _, hhas⟩ := of_decide_eq_true (List.mem_filter.mp hk).2
      exact hout ⟨m, hm, hhas⟩
  · cases hk

/-- What comes behind a hull starts with the offset where the hull ends. -/
theorem Clear.head_behind (h : Clear moved lo hi) (hlo : lo ≤ hi)
    (hk : (bytesBehind moved n hi).head? = some k) : k = hi := by
  unfold bytesBehind at hk
  split at hk
  · rw [if_neg (h.not_leaves hlo (Nat.le_refl hi))] at hk
    exact (Option.some.inj hk).symm
  · cases hk

section Another

variable {moved : List (Span × Nat)} {s : Span} {i : Nat}

theorem Leaves.append_iff : Leaves (moved ++ [(s, i)]) k ↔ Leaves moved k ∨ s.Has k := by
  simp [Leaves, or_and_right, exists_or]

/-- One more move takes its span to its target, and nothing elsewhere. -/
theorem arrivals_append (parts : List Nat) (hi : Clear moved i i) :
    arrivals id (moved ++ [(s, i)]) parts k =
      if k = i then parts.filter s.Has else arrivals id moved parts k := by
  unfold arrivals
  split
  · rename_i hk
    subst hk
    refine List.filter_congr fun p _ => ?_
    have hnone : ¬ ∃ m ∈ moved, m.2 = k ∧ m.1.Has p := by
      rintro ⟨m, hm, rfl, -⟩
      have := hi m hm
      dsimp only [hull] at this
      omega
    simp [or_and_right, exists_or, hnone]
  · rename_i hk
    refine List.filter_congr fun p _ => ?_
    simp [or_and_right, exists_or, Ne.symm hk]

theorem slot_append (hclear : Clear moved i i) (hk : k ≠ i) (hout : ¬ s.Has k) (parts : List Nat) :
    slot id (moved ++ [(s, i)]) parts k = slot id moved parts k := by
  simp [slot, arrivals_append parts hclear, hk, Leaves.append_iff, hout]

/-- Neither what comes before the hull of one more move changes, nor what comes behind it. -/
theorem bytesBefore_append (hclear : Clear moved i i) (hlo : lo ≤ s.start) (hloi : lo ≤ i) :
    bytesBefore (moved ++ [(s, i)]) n lo = bytesBefore moved n lo := by
  refine List.flatMap_congr fun k hk => ?_
  rw [List.mem_range'_1] at hk
  refine slot_append hclear (by omega) ?_ _
  rintro ⟨hstart, _⟩
  omega

theorem bytesBehind_append (hclear : Clear moved i i) (hhi : s.stop ≤ hi) (hhii : i ≤ hi) :
    bytesBehind (moved ++ [(s, i)]) n hi = bytesBehind moved n hi := by
  have hout : ∀ k, hi ≤ k → ¬ s.Has k := by
    rintro k hk ⟨_, hstop⟩
    omega
  have hslots : (List.range' (hi + 1) (n - (hi + 1))).flatMap
      (slot id (moved ++ [(s, i)]) (List.range n)) =
      (List.range' (hi + 1) (n - (hi + 1))).flatMap (slot id moved (List.range n)) := by
    refine List.flatMap_congr fun k hk => ?_
    rw [List.mem_range'_1] at hk
    exact slot_append hclear (by omega) (hout k (by omega)) _
  unfold bytesBehind
  split
  · rename_i hlt
    simp only [hslots, Leaves.append_iff, hout hi (Nat.le_refl hi), or_false,
      arrivals_append (List.range n) hclear, if_neg (show n ≠ i by omega)]
  · rfl

/-- The bytes of a span in their order. -/
theorem filter_has (hs : s.start ≤ s.stop) (hn : s.stop ≤ n) :
    (List.range n).filter s.Has = List.range' s.start (s.stop - s.start) := by
  have hall : (List.range' s.start (s.stop - s.start)).filter s.Has =
      List.range' s.start (s.stop - s.start) := by
    refine List.filter_eq_self.mpr fun k hk => decide_eq_true ?_
    rw [List.mem_range'_1] at hk
    exact ⟨hk.1, by omega⟩
  have hfirst : (List.range' 0 s.start).filter s.Has = [] := by
    refine List.filter_eq_nil_iff.mpr fun k hk => ?_
    rw [List.mem_range'_1] at hk
    rw [decide_eq_true_eq]
    exact fun hhas => absurd hhas.1 (by omega)
  have hrest : (List.range' s.stop (n - s.stop)).filter s.Has = [] := by
    refine List.filter_eq_nil_iff.mpr fun k hk => ?_
    rw [List.mem_range'_1] at hk
    rw [decide_eq_true_eq]
    exact fun hhas => absurd hhas.2 (by omega)
  rw [range_split hs hn, List.filter_append, List.filter_append, hfirst, hall, hrest,
    List.nil_append, List.append_nil]

/-- Inside of its hull, the move takes the span away and puts it before the target. -/
theorem Clear.slot_append_eq (h : Clear moved lo hi) (hlo : lo ≤ k) (hhi : k ≤ hi)
    (hloi : lo ≤ i) (hhii : i ≤ hi) (parts : List Nat) :
    slot id (moved ++ [(s, i)]) parts k =
      (if k = i then parts.filter s.Has else []) ++ if s.Has k then [] else [k] := by
  have hclear : Clear moved i i := fun m hm => (h m hm).imp (by omega) (by omega)
  have hleaves := h.not_leaves hlo hhi
  simp only [slot, arrivals_append parts hclear, id_eq, Leaves.append_iff, hleaves, false_or,
    h.arrivals_eq hlo hhi]

/-- What does not move stays. -/
theorem Clear.flatMap_stay (h : Clear moved lo hi) (hlo : lo ≤ a) (hhi : a + len ≤ hi)
    (hloi : lo ≤ i) (hhii : i ≤ hi) (hi : i < a ∨ a + len ≤ i)
    (hout : ∀ k, a ≤ k → k < a + len → ¬ s.Has k) (parts : List Nat) :
    (List.range' a len).flatMap (slot id (moved ++ [(s, i)]) parts) = List.range' a len := by
  have hslot : ∀ k ∈ List.range' a len, slot id (moved ++ [(s, i)]) parts k = [k] := by
    intro k hk
    rw [List.mem_range'_1] at hk
    rw [h.slot_append_eq (by omega) (by omega) hloi hhii, if_neg (by omega),
      if_neg (hout k hk.1 hk.2), List.nil_append]
  rw [List.flatMap_congr hslot, List.flatMap_singleton']

/-- Nothing comes in the place of the span that moves. -/
theorem Clear.flatMap_leave (h : Clear moved lo hi) (hlo : lo ≤ s.start) (hhi : s.stop ≤ hi)
    (hloi : lo ≤ i) (hhii : i ≤ hi) (hout : ¬ s.Has i) (hs : s.start ≤ s.stop) (parts : List Nat) :
    (List.range' s.start (s.stop - s.start)).flatMap (slot id (moved ++ [(s, i)]) parts) = [] := by
  refine List.flatMap_eq_nil_iff.mpr fun k hk => ?_
  rw [List.mem_range'_1] at hk
  have hhas : s.Has k := ⟨hk.1, by omega⟩
  have hne : k ≠ i := by
    rintro rfl
    exact hout hhas
  rw [h.slot_append_eq (by omega) (by omega) hloi hhii, if_neg hne, if_pos hhas, List.nil_append]

end Another

section Arrange

variable {moved : List (Span × Nat)} {s : Span} {i n : Nat}

theorem mem_run (hs : s.start ≤ s.stop) :
    k ∈ List.range' s.start (s.stop - s.start) ↔ s.Has k := by
  rw [List.mem_range'_1, Nat.add_sub_of_le hs]
  rfl

/-- A move back, with nothing moved before from or to its hull. -/
theorem arrange_back (he : Edit.move? e = some (s, i)) (hs : s.start < s.stop) (hi : i < s.start)
    (hn : s.stop ≤ n) (h : Clear moved i s.stop) :
    e.arrange (placedBytes moved n) = placedBytes (moved ++ [(s, i)]) n := by
  have hclear : Clear moved i i := fun m hm => (h m hm).imp_right (by omega)
  have hrow : List.range' i (s.stop - i) =
      List.range' i (s.start - i) ++ List.range' s.start (s.stop - s.start) := by
    have := List.range'_append_1 (s := i) (m := s.start - i) (n := s.stop - s.start)
    rw [Nat.add_sub_of_le (Nat.le_of_lt hi)] at this
    rw [this]
    congr 1
    omega
  have hfirst : List.range' i (s.start - i) = i :: List.range' (i + 1) (s.start - (i + 1)) := by
    rw [show s.start - i = s.start - (i + 1) + 1 by omega, List.range'_succ]
  have hbefore : ∀ k ∈ bytesBefore moved n i ++ List.range' i (s.start - i), ¬ s.Has k := by
    intro k hk hhas
    rcases List.mem_append.mp hk with hk | hk
    · exact h.not_mem_before (by have := hhas.1; omega) (Nat.le_of_lt hhas.2) hk
    · rw [List.mem_range'_1] at hk
      have := hhas.1
      omega
  have hbehind : ∀ k ∈ bytesBehind moved n s.stop, ¬ s.Has k := fun k hk hhas =>
    h.not_mem_behind (by have := hhas.1; omega) hhas.2 hk
  calc e.arrange (placedBytes moved n)
      = e.arrange ((bytesBefore moved n i ++ List.range' i (s.start - i)) ++
          (List.range' s.start (s.stop - s.start) ++ bytesBehind moved n s.stop)) := by
        rw [h.placedBytes_eq (by omega) hn, hrow]
        simp only [List.append_assoc]
    _ = bytesBefore moved n i ++ (List.range' s.start (s.stop - s.start) ++
          (List.range' i (s.start - i) ++ bytesBehind moved n s.stop)) := by
        refine Edit.arrange_eq he (fun k hk => (mem_run (Nat.le_of_lt hs)).mp hk) hbefore hbehind
          (List.append_assoc _ _ _) (h.not_mem_before (Nat.le_refl i) (by omega)) ?_
        intro k hk
        rw [hfirst] at hk
        exact (Option.some.inj hk).symm
    _ = placedBytes (moved ++ [(s, i)]) n := by
        have hle : i ≤ s.stop := by omega
        rw [placedBytes_eq hle hn, hrow, List.flatMap_append,
          h.flatMap_leave (by omega) (Nat.le_refl _) (Nat.le_refl i) (by omega)
            (fun hhas => absurd hhas.1 (by omega)) (Nat.le_of_lt hs),
          arrivals_append _ hclear, if_neg (by omega),
          h.arrivals_eq (by omega) (Nat.le_refl s.stop),
          bytesBefore_append hclear (by omega) (Nat.le_refl i),
          bytesBehind_append hclear (Nat.le_refl _) (by omega), hfirst, List.flatMap_cons,
          h.slot_append_eq (Nat.le_refl i) (by omega) (Nat.le_refl i) (by omega), if_pos rfl,
          if_neg (fun hhas => absurd hhas.1 (by omega)), filter_has (Nat.le_of_lt hs) hn,
          h.flatMap_stay (by omega) (by omega) (Nat.le_refl i) (by omega) (by omega)
            fun k _ hk hhas => absurd hhas.1 (by omega)]
        simp

/-- A move forth. -/
theorem arrange_forth (he : Edit.move? e = some (s, i)) (hs : s.start < s.stop) (hi : s.stop < i)
    (hn : i ≤ n) (h : Clear moved s.start i) :
    e.arrange (placedBytes moved n) = placedBytes (moved ++ [(s, i)]) n := by
  have hclear : Clear moved i i := fun m hm => (h m hm).imp_left (by omega)
  have hrow : List.range' s.start (i - s.start) =
      List.range' s.start (s.stop - s.start) ++ List.range' s.stop (i - s.stop) := by
    have := List.range'_append_1 (s := s.start) (m := s.stop - s.start) (n := i - s.stop)
    rw [Nat.add_sub_of_le (Nat.le_of_lt hs)] at this
    rw [this]
    congr 1
    omega
  have hbefore : ∀ k ∈ bytesBefore moved n s.start, ¬ s.Has k := fun k hk hhas =>
    h.not_mem_before hhas.1 (by have := hhas.2; omega) hk
  have hbehind : ∀ k ∈ List.range' s.stop (i - s.stop) ++ bytesBehind moved n i, ¬ s.Has k := by
    intro k hk hhas
    rcases List.mem_append.mp hk with hk | hk
    · rw [List.mem_range'_1] at hk
      have := hhas.2
      omega
    · exact h.not_mem_behind hhas.1 (by have := hhas.2; omega) hk
  have htarget : i ∉ bytesBefore moved n s.start ++ List.range' s.stop (i - s.stop) := by
    intro hk
    rcases List.mem_append.mp hk with hk | hk
    · exact h.not_mem_before (by omega) (Nat.le_refl i) hk
    · rw [List.mem_range'_1] at hk
      omega
  calc e.arrange (placedBytes moved n)
      = e.arrange (bytesBefore moved n s.start ++ (List.range' s.start (s.stop - s.start) ++
          (List.range' s.stop (i - s.stop) ++ bytesBehind moved n i))) := by
        rw [h.placedBytes_eq (by omega) hn, hrow, List.append_assoc]
    _ = (bytesBefore moved n s.start ++ List.range' s.stop (i - s.stop)) ++
          (List.range' s.start (s.stop - s.start) ++ bytesBehind moved n i) := by
        refine Edit.arrange_eq he (fun k hk => (mem_run (Nat.le_of_lt hs)).mp hk) hbefore hbehind
          (List.append_assoc _ _ _).symm htarget ?_
        intro k hk
        exact h.head_behind (by omega) hk
    _ = placedBytes (moved ++ [(s, i)]) n := by
        have hle : s.start ≤ i := by omega
        rw [placedBytes_eq hle hn, hrow, List.flatMap_append,
          h.flatMap_leave (Nat.le_refl _) (by omega) (by omega) (Nat.le_refl i)
            (fun hhas => absurd hhas.2 (by omega)) (Nat.le_of_lt hs),
          h.flatMap_stay (by omega) (by omega) (by omega) (Nat.le_refl i) (by omega)
            (fun k hk _ hhas => absurd hhas.2 (by omega)),
          arrivals_append _ hclear, if_pos rfl, filter_has (Nat.le_of_lt hs) (by omega),
          bytesBefore_append hclear (Nat.le_refl _) (by omega),
          bytesBehind_append hclear (by omega) (Nat.le_refl i)]
        simp

/-- A move that meets no hull of the moves before puts its bytes before its target. -/
theorem arrange_placedBytes (he : Edit.move? e = some (s, i)) (hs : s.start < s.stop)
    (hn : s.stop ≤ n) (hi : i ≤ n) (hout : ¬ (s.start ≤ i ∧ i ≤ s.stop))
    (hremote : ∀ m ∈ moved, Remote m (s, i)) :
    e.arrange (placedBytes moved n) = placedBytes (moved ++ [(s, i)]) n := by
  by_cases hback : i < s.start
  · refine arrange_back he hs hback hn fun m hm => ?_
    have := hremote m hm
    dsimp only [Remote, hull] at this ⊢
    omega
  · refine arrange_forth he hs (by omega) hi fun m hm => ?_
    have := hremote m hm
    dsimp only [Remote, hull] at this ⊢
    omega

/-- An offset of a hull that no other move meets comes right before the next one. -/
theorem Clear.exists_split (h : Clear moved lo hi) (hlo : lo ≤ j) (hj : j < hi) (hn : hi ≤ n) :
    ∃ x z, placedBytes moved n = x ++ j :: z ∧ ∀ k, z.head? = some k → k = j + 1 := by
  have hrow : List.range' lo (hi - lo) =
      List.range' lo (j - lo) ++ j :: List.range' (j + 1) (hi - (j + 1)) := by
    have := List.range'_append_1 (s := lo) (m := j - lo) (n := hi - j)
    rw [Nat.add_sub_of_le hlo, show hi - j = hi - (j + 1) + 1 by omega, List.range'_succ] at this
    rw [this]
    congr 1
    omega
  refine ⟨bytesBefore moved n lo ++ List.range' lo (j - lo),
    List.range' (j + 1) (hi - (j + 1)) ++ bytesBehind moved n hi, ?_, ?_⟩
  · rw [h.placedBytes_eq (by omega) hn, hrow]
    simp only [List.append_assoc, List.cons_append]
  · intro k hk
    by_cases hlast : j + 1 < hi
    · rw [show hi - (j + 1) = hi - (j + 1 + 1) + 1 by omega, List.range'_succ] at hk
      exact (Option.some.inj hk).symm
    · obtain rfl : hi = j + 1 := by omega
      rw [Nat.sub_self, List.range'_zero, List.nil_append] at hk
      exact h.head_behind (by omega) hk

/-- Nor does its span stand right before its target. -/
theorem not_infix_placedBytes (hs : s.start < s.stop) (hn : s.stop ≤ n) (hi : i ≤ n)
    (hout : ¬ (s.start ≤ i ∧ i ≤ s.stop)) (hremote : ∀ m ∈ moved, Remote m (s, i))
    (hnodup : (placedBytes moved n).Nodup) : ¬ [s.stop - 1, i] <:+: placedBytes moved n := by
  have h : Clear moved (min s.start i) (max s.stop i) := fun m hm => hremote m hm
  obtain ⟨x, z, he, hz⟩ :=
    h.exists_split (j := s.stop - 1) (n := n) (by omega) (by omega) (by omega)
  rw [he] at hnodup ⊢
  rw [infix_iff hnodup]
  intro hhead
  have := hz i hhead
  omega

end Arrange

/-- Without moves, the bytes stay in their order. -/
theorem placedBytes_nil (n : Nat) : placedBytes [] n = List.range n := by
  have h : Clear [] 0 n := by simp [Clear]
  have hbehind : bytesBehind [] n n = [] := if_neg (Nat.lt_irrefl n)
  rw [h.placedBytes_eq (Nat.zero_le n) (Nat.le_refl n), hbehind, bytesBefore, List.range_eq_range']
  simp

/-- No hull of a move meets that of another. -/
def HullsApart (edits : List Edit) : Prop :=
  (moves edits).Pairwise Remote

instance : Decidable (HullsApart edits) :=
  inferInstanceAs (Decidable (List.Pairwise _ _))

theorem HullsApart.append_left (h : HullsApart (first ++ next)) : HullsApart first := by
  unfold HullsApart at *
  rw [moves_append] at h
  exact (List.pairwise_append.mp h).1

theorem HullsApart.remote (h : HullsApart (edits ++ [e])) (he : e.move? = some n) :
    ∀ m ∈ moves edits, Remote m n := by
  unfold HullsApart at h
  rw [moves_append] at h
  intro m hm
  exact (List.pairwise_append.mp h).2.2 m hm n (mem_moves_singleton.mpr he)

theorem HullsApart.eq_or_remote (h : HullsApart edits) (hm : m ∈ moves edits)
    (hn : n ∈ moves edits) : m = n ∨ Remote m n := by
  have : Std.Symm fun m n => m = n ∨ Remote m n := ⟨fun _ _ h => h.imp Eq.symm Or.symm⟩
  exact List.Pairwise.forall_of_forall (R := fun m n => m = n ∨ Remote m n)
    (fun _ _ => Or.inl rfl) (List.Pairwise.imp Or.inr h) hm hn

/-- Moves with hulls apart arrange the bytes of a text as their targets say, in whatever order they
are made. -/
theorem Accepted.arrangement_eq {text : Text} (run : Accepted text edits o)
    (hapart : HullsApart edits) :
    arrangement text edits = placedBytes (moves edits) text.size := by
  induction run with
  | start => exact (placedBytes_nil _).symm
  | @step edits o e w run allowed made ih =>
    rw [arrangement_concat, ih hapart.append_left, moves_append]
    cases he : e.move? with
    | none => simp [Edit.arrange, moves, he]
    | some m =>
      obtain ⟨s, i⟩ := m
      obtain ⟨hin, hs, htarget, hout, _⟩ := run.allows_move allowed he
      have hmoves : moves [e] = [(s, i)] := by simp [moves, he]
      rw [hmoves]
      exact arrange_placedBytes he hs (Text.isBoundary_le hin.2.2)
        (Text.isBoundary_le htarget.2.1) hout (hapart.remote he)

end GadgetBuild.Overlay
