import GadgetBuild.Text

/-!
Offsets and cuts. A boundary is the size of a beginning of the text, and cutting there gives that
beginning and what follows it.
-/

namespace GadgetBuild.Text

theorem size_pos {t : Text} (h : t ≠ []) : 0 < size t := by
  cases t with
  | nil => exact absurd rfl h
  | cons c t =>
    have hc := c.utf8Size_pos
    rw [size_cons]
    omega

theorem size_eq_zero {t : Text} : size t = 0 ↔ t = [] := by
  constructor
  · intro h
    by_cases ht : t = []
    · exact ht
    · have := size_pos ht
      omega
  · rintro rfl
    rfl

/-- A boundary is where some beginning of the text ends. -/
theorem isBoundary_iff {t : Text} : isBoundary n t = true ↔ ∃ p q, t = p ++ q ∧ size p = n := by
  fun_induction isBoundary n t with
  | case1 t => exact ⟨fun _ => ⟨[], t, rfl, rfl⟩, fun _ => rfl⟩
  | case2 n =>
    simp only [Bool.false_eq_true, false_iff]
    rintro ⟨p, q, he, hn⟩
    obtain ⟨rfl, rfl⟩ := List.append_eq_nil_iff.mp he.symm
    simp at hn
  | case3 n c t ih =>
    rw [Bool.and_eq_true, decide_eq_true_eq, ih]
    constructor
    · rintro ⟨hc, p, q, rfl, hp⟩
      have hs : size (c :: p) = n + 1 := by
        rw [size_cons, hp]
        exact Nat.add_sub_cancel' hc
      exact ⟨c :: p, q, rfl, hs⟩
    · rintro ⟨p, q, he, hp⟩
      cases p with
      | nil => simp at hp
      | cons d p =>
        obtain ⟨rfl, rfl⟩ := List.cons.inj he
        rw [size_cons] at hp
        exact ⟨by omega, p, q, rfl, by omega⟩

@[simp] theorem isBoundary_size_append (p q : Text) : isBoundary (size p) (p ++ q) = true :=
  isBoundary_iff.mpr ⟨p, q, rfl, rfl⟩

@[simp] theorem upTo_size_append (p q : Text) : upTo (size p) (p ++ q) = p := by
  induction p with
  | nil => cases q <;> rfl
  | cons c p ih =>
    obtain ⟨n, hn⟩ := Nat.exists_eq_succ_of_ne_zero (Nat.pos_iff_ne_zero.mp c.utf8Size_pos)
    have hs : size (c :: p) = n + size p + 1 := by rw [size_cons]; omega
    have hd : n + size p + 1 - c.utf8Size = size p := by omega
    rw [hs, List.cons_append, upTo, hd, ih]

@[simp] theorem beyond_size_append (p q : Text) : beyond (size p) (p ++ q) = q := by
  have h := upTo_append_beyond (size p) (p ++ q)
  rw [upTo_size_append] at h
  exact List.append_cancel_left h

/-- The part between two boundaries is what stands between the beginnings that end there. -/
theorem slice_size_append (p m q : Text) :
    slice (size p) (size p + size m) (p ++ m ++ q) = m := by
  rw [slice, List.append_assoc, beyond_size_append, Nat.add_sub_cancel_left, upTo_size_append]

theorem beyond_append (p t : Text) (n : Nat) : beyond (size p + n) (p ++ t) = beyond n t := by
  induction p with
  | nil => rw [size_nil, Nat.zero_add, List.nil_append]
  | cons c p ih =>
    obtain ⟨k, hk⟩ := Nat.exists_eq_succ_of_ne_zero (Nat.pos_iff_ne_zero.mp c.utf8Size_pos)
    have hs : size (c :: p) + n = k + size p + n + 1 := by rw [size_cons]; omega
    have hd : k + size p + n + 1 - c.utf8Size = size p + n := by omega
    rw [hs, List.cons_append, beyond, hd, ih]

theorem upTo_append (p t : Text) (n : Nat) : upTo (size p + n) (p ++ t) = p ++ upTo n t := by
  have h := upTo_append_beyond (size p + n) (p ++ t)
  have ht : p ++ t = (p ++ upTo n t) ++ beyond n t := by
    rw [List.append_assoc, upTo_append_beyond]
  rw [beyond_append] at h
  exact List.append_cancel_right (h.trans ht)

theorem slice_append {p t : Text} (h : size p ≤ start) :
    slice start stop (p ++ t) = slice (start - size p) (stop - size p) t := by
  obtain ⟨n, rfl⟩ := Nat.exists_eq_add_of_le h
  have hlen : stop - (size p + n) = stop - size p - n := Nat.sub_add_eq stop (size p) n
  rw [slice, slice, beyond_append, Nat.add_sub_cancel_left, hlen]

theorem isBoundary_le {t : Text} (h : isBoundary n t = true) : n ≤ size t := by
  obtain ⟨p, q, rfl, rfl⟩ := isBoundary_iff.mp h
  rw [size_append]
  omega

/-- Two beginnings of a text in the order of their sizes: the longer one goes on from the
shorter. -/
theorem append_of_size_le {p q p' q' : Text} (h : p ++ q = p' ++ q') (hs : size p ≤ size p') :
    ∃ m, p' = p ++ m ∧ q = m ++ q' := by
  rcases List.append_eq_append_iff.mp h with ⟨m, rfl, rfl⟩ | ⟨m, rfl, rfl⟩
  · exact ⟨m, rfl, rfl⟩
  · have hm : m = [] := by
      rw [size_append] at hs
      exact size_eq_zero.mp (by omega)
    subst m
    exact ⟨[], by simp, by simp⟩

theorem append_of_size_eq {p q p' q' : Text} (h : p ++ q = p' ++ q') (hs : size p = size p') :
    p = p' ∧ q = q' := by
  obtain ⟨m, rfl, rfl⟩ := append_of_size_le h (Nat.le_of_eq hs)
  rw [size_append] at hs
  obtain rfl := size_eq_zero.mp (show size m = 0 by omega)
  simp

/-- A boundary of a text that is no offset inside its first part is one of the rest. -/
theorem isBoundary_append_right {p q : Text} (h : isBoundary n (p ++ q) = true) (hn : size p ≤ n) :
    isBoundary (n - size p) q = true := by
  obtain ⟨a, b, he, rfl⟩ := isBoundary_iff.mp h
  obtain ⟨m, rfl, rfl⟩ := append_of_size_le he hn
  rw [size_append, Nat.add_sub_cancel_left]
  exact isBoundary_size_append m b

theorem isBoundary_append_left {p q : Text} (h : isBoundary n (p ++ q) = true) (hn : n ≤ size p) :
    isBoundary n p = true := by
  obtain ⟨a, b, he, rfl⟩ := isBoundary_iff.mp h
  obtain ⟨m, rfl, rfl⟩ := append_of_size_le he.symm hn
  exact isBoundary_size_append a m

end GadgetBuild.Text
