import Mathlib.Algebra.BigOperators.Group.List.Basic
import Mathlib.Algebra.GroupWithZero.Nat
import Mathlib.Data.List.Infix
import GadgetBuild.Proofs.Text.Front

/-!
The pieces of a text that is put together of parts. As long as no occurrence of the needle reaches
from one part into the next, the text is cut and replaced part by part.
-/

namespace GadgetBuild.Text

variable {needle : Text}

theorem piecesFrom_skip (p t : Text) :
    piecesFrom needle p.length (p ++ t) = piecesFrom needle 0 t := by
  induction p with
  | nil => rfl
  | cons c p ih => rw [List.length_cons, List.cons_append, piecesFrom, ih]

theorem pieces_ne_nil (t needle : Text) : t.pieces needle ≠ [] :=
  piecesFrom_ne_nil needle 0 t

theorem pieces_needle_append (hn : needle ≠ []) (t : Text) :
    (needle ++ t).pieces needle = [] :: t.pieces needle := by
  obtain ⟨c, lead, rfl⟩ := List.exists_cons_of_ne_nil hn
  rw [pieces, List.cons_append, piecesFrom, if_pos (by simp), List.length_cons,
    Nat.add_sub_cancel, piecesFrom_skip]
  rfl

theorem pieces_cons {t : Text} (h : ¬ needle <+: c :: t) :
    pieces (c :: t) needle = (t.pieces needle).modifyHead (c :: ·) := by
  have hc : ¬ needle.isPrefixOf (c :: t) = true := by rwa [List.isPrefixOf_iff_prefix]
  obtain ⟨p, ps, hp⟩ := List.exists_cons_of_ne_nil (piecesFrom_ne_nil needle 0 t)
  rw [pieces, piecesFrom.eq_def, pieces]
  simp only [hc, Bool.false_eq_true, if_false, hp]
  rfl

theorem pieces_eq_singleton_iff (hn : needle ≠ []) {t : Text} :
    t.pieces needle = [t] ↔ ¬ needle <:+: t := by
  induction t with
  | nil => simp [pieces, piecesFrom, hn]
  | cons c t ih =>
    rw [List.infix_cons_iff, not_or, ← ih]
    by_cases hc : needle <+: c :: t
    · obtain ⟨rest, hrest⟩ := hc
      rw [← hrest, pieces_needle_append hn]
      simp [pieces_ne_nil]
    · rw [pieces_cons hc]
      obtain ⟨p, ps, hp⟩ := List.exists_cons_of_ne_nil (pieces_ne_nil t needle)
      simp [hp, hc]

/-- How often a needle occurs, by the pieces. -/
theorem length_pieces (t needle : Text) : (t.pieces needle).length = t.count needle + 1 := by
  have := List.length_pos_iff.mpr (pieces_ne_nil t needle)
  rw [count]
  omega

theorem count_eq_zero_iff (hn : needle ≠ []) {t : Text} :
    t.count needle = 0 ↔ ¬ needle <:+: t := by
  rw [← pieces_eq_singleton_iff hn]
  constructor
  · intro h
    obtain ⟨p, hp⟩ := List.length_eq_one_iff.mp ((length_pieces t needle).trans (by rw [h]))
    have ht := intercalate_pieces hn t
    rw [hp, List.intercalate_singleton] at ht
    rw [hp, ht]
  · intro h
    rw [count, h]
    rfl

/-- The pieces of two texts one behind the other, of which the last and the first make one. -/
def glue : List Text → List Text → List Text
  | [], rest => rest
  | [last], rest => rest.modifyHead (last ++ ·)
  | p :: q :: ps, rest => p :: glue (q :: ps) rest

theorem glue_cons {ps : List Text} (h : ps ≠ []) (p : Text) (rest : List Text) :
    glue (p :: ps) rest = p :: glue ps rest := by
  obtain ⟨q, ps, rfl⟩ := List.exists_cons_of_ne_nil h
  rfl

theorem glue_modifyHead {ps : List Text} (h : ps ≠ []) (c : Char) (rest : List Text) :
    glue (ps.modifyHead (c :: ·)) rest = (glue ps rest).modifyHead (c :: ·) := by
  obtain ⟨p, ps, rfl⟩ := List.exists_cons_of_ne_nil h
  cases ps with
  | nil => cases rest <;> rfl
  | cons q ps => rfl

theorem length_glue {ps : List Text} (h : ps ≠ []) (rest : List Text) :
    (glue ps rest).length + 1 = ps.length + rest.length := by
  induction ps with
  | nil => exact absurd rfl h
  | cons p ps ih =>
    by_cases hps : ps = []
    · subst hps
      rw [glue, List.length_modifyHead, List.length_singleton, Nat.add_comm]
    · rw [glue_cons hps, List.length_cons, ih hps, List.length_cons]
      omega

theorem glue_ne_nil {ps rest : List Text} (h : rest ≠ []) : glue ps rest ≠ [] := by
  fun_cases glue ps rest with
  | case1 => exact h
  | case2 last => simpa using h
  | case3 => simp

theorem glue_nil_cons {ps : List Text} (h : ps ≠ []) (rest : List Text) :
    glue ps ([] :: rest) = ps ++ rest := by
  induction ps with
  | nil => exact absurd rfl h
  | cons p ps ih =>
    by_cases hps : ps = []
    · simp [hps, glue]
    · rw [glue_cons hps, ih hps, List.cons_append]

theorem intercalate_cons {ps : List Text} (h : ps ≠ []) (sep p : Text) :
    List.intercalate sep (p :: ps) = p ++ sep ++ List.intercalate sep ps := by
  obtain ⟨q, ps, rfl⟩ := List.exists_cons_of_ne_nil h
  exact List.intercalate_cons_cons

theorem intercalate_glue {ps rest : List Text} (h : ps ≠ []) (hrest : rest ≠ []) (sep : Text) :
    List.intercalate sep (glue ps rest) = List.intercalate sep ps ++ List.intercalate sep rest := by
  induction ps with
  | nil => exact absurd rfl h
  | cons p ps ih =>
    by_cases hps : ps = []
    · subst hps
      obtain ⟨q, rest, rfl⟩ := List.exists_cons_of_ne_nil hrest
      cases rest with
      | nil => simp [glue]
      | cons r rest => simp [glue, List.intercalate_cons_cons]
    · rw [glue_cons hps, intercalate_cons (glue_ne_nil hrest), ih hps, intercalate_cons hps,
        List.append_assoc _ _ (List.intercalate sep rest)]

theorem intercalate_concat {ps : List Text} (h : ps ≠ []) (sep last : Text) :
    List.intercalate sep (ps ++ [last]) = List.intercalate sep ps ++ sep ++ last := by
  rw [← glue_nil_cons h, intercalate_glue h (by simp), intercalate_cons (by simp),
    List.intercalate_singleton, List.nil_append, List.append_assoc]

/-- An occurrence of the needle begins in the first text and ends in the second. -/
def Crosses (needle first second : Text) : Prop :=
  ∃ u v, needle = u ++ v ∧ u ≠ [] ∧ v ≠ [] ∧ u <:+ first ∧ v <+: second

theorem Crosses.of_suffix (h : Crosses needle first second) (hs : first <:+ first') :
    Crosses needle first' second := by
  obtain ⟨u, v, hn, hu, hv, hfirst, hsecond⟩ := h
  exact ⟨u, v, hn, hu, hv, hfirst.trans hs, hsecond⟩

theorem not_crosses_of_last (hc : c ∉ needle) (hlast : c ∈ first.getLast?) :
    ¬ Crosses needle first second := by
  rintro ⟨u, v, rfl, hu, -, hfirst, -⟩
  obtain ⟨w, rfl⟩ := List.getLast?_eq_some_iff.mp hlast
  obtain ⟨x, rfl, -⟩ := (List.suffix_concat_iff.mp hfirst).resolve_left hu
  simp at hc

theorem not_crosses_of_head (hc : c ∉ needle) (hhead : c ∈ second.head?) :
    ¬ Crosses needle first second := by
  rintro ⟨u, v, rfl, -, hv, -, hsecond⟩
  obtain ⟨w, rfl⟩ := List.head?_eq_some_iff.mp hhead
  obtain ⟨x, rfl, -⟩ := (List.prefix_cons_iff.mp hsecond).resolve_left hv
  simp at hc

theorem length_lt_append (hn : needle ≠ []) (t : Text) : t.length < (needle ++ t).length := by
  have := List.length_pos_iff.mpr hn
  rw [List.length_append]
  omega

theorem not_crosses_nil : ¬ Crosses needle [] second := by
  rintro ⟨u, v, -, hu, -, hfirst, -⟩
  exact hu (List.suffix_nil.mp hfirst)

theorem pieces_append (hn : needle ≠ []) (h : ¬ Crosses needle first second) :
    (first ++ second).pieces needle = glue (first.pieces needle) (second.pieces needle) := by
  induction hlen : first.length using Nat.strongRecOn generalizing first with
  | ind n ih =>
    subst hlen
    cases first with
    | nil =>
      obtain ⟨p, ps, hp⟩ := List.exists_cons_of_ne_nil (pieces_ne_nil second needle)
      rw [List.nil_append, hp]
      rfl
    | cons c first =>
      by_cases hc : needle <+: c :: first
      · obtain ⟨rest, hrest⟩ := hc
        have hlen : rest.length < (c :: first).length := hrest ▸ length_lt_append hn rest
        rw [← hrest, List.append_assoc, pieces_needle_append hn, pieces_needle_append hn,
          glue_cons (pieces_ne_nil _ _), ih _ hlen (fun hx => h (hx.of_suffix ⟨needle, hrest⟩)) rfl]
      · have hc' : ¬ needle <+: c :: (first ++ second) := by
          intro hp
          rcases List.prefix_or_prefix_of_prefix hp (List.prefix_append (c :: first) second)
            with hp' | ⟨v, hv⟩
          · exact hc hp'
          · refine h ⟨c :: first, v, hv.symm, by simp, ?_, List.suffix_refl _, ?_⟩
            · rintro rfl
              exact hc ⟨[], by rw [← hv]; simp⟩
            · rw [← hv] at hp
              exact (List.prefix_append_right_inj _).mp hp
        rw [List.cons_append, pieces_cons hc', pieces_cons hc, glue_modifyHead (pieces_ne_nil _ _),
          ih _ (by simp) (fun hx => h (hx.of_suffix (List.suffix_cons c first))) rfl]

theorem replace_append (hn : needle ≠ []) (h : ¬ Crosses needle first second) (new : Text) :
    (first ++ second).replace needle new =
      first.replace needle new ++ second.replace needle new := by
  rw [replace, pieces_append hn h, intercalate_glue (pieces_ne_nil _ _) (pieces_ne_nil _ _)]
  rfl

theorem count_append (hn : needle ≠ []) (h : ¬ Crosses needle first second) :
    (first ++ second).count needle = first.count needle + second.count needle := by
  have hlen := length_glue (pieces_ne_nil first needle) (second.pieces needle)
  rw [← pieces_append hn h, length_pieces, length_pieces, length_pieces] at hlen
  omega

theorem replace_needle_append (hn : needle ≠ []) (t new : Text) :
    (needle ++ t).replace needle new = new ++ t.replace needle new := by
  rw [replace, pieces_needle_append hn, intercalate_cons (pieces_ne_nil _ _)]
  rfl

theorem count_needle_append (hn : needle ≠ []) (t : Text) :
    (needle ++ t).count needle = 1 + t.count needle := by
  have h := congrArg List.length (pieces_needle_append hn t)
  rw [List.length_cons, length_pieces, length_pieces] at h
  omega

theorem replace_cons_of_not_lead {t : Text} (h : ¬ needle <+: c :: t) (new : Text) :
    replace (c :: t) needle new = c :: t.replace needle new := by
  rw [replace, pieces_cons h, replace]
  obtain ⟨p, ps, hp⟩ := List.exists_cons_of_ne_nil (pieces_ne_nil t needle)
  rw [hp, List.modifyHead_cons]
  cases ps with
  | nil => simp
  | cons q ps => simp [List.intercalate_cons_cons]

theorem replace_of_absent (hn : needle ≠ []) {t : Text} (h : ¬ needle <:+: t) (new : Text) :
    t.replace needle new = t := by
  rw [replace, (pieces_eq_singleton_iff hn).mpr h, List.intercalate_singleton]

theorem not_infix_nil (hn : needle ≠ []) : ¬ needle <:+: [] := by
  simpa using hn

theorem head_isPrefix_intercalate (sep p : Text) (ps : List Text) :
    p <+: List.intercalate sep (p :: ps) := by
  by_cases hps : ps = []
  · rw [hps, List.intercalate_singleton]
  · rw [intercalate_cons hps, List.append_assoc]
    exact List.prefix_append p _

/-- The separator stands in no piece. -/
theorem not_infix_of_mem_pieces (hn : needle ≠ []) {t : Text} (h : p ∈ t.pieces needle) :
    ¬ needle <:+: p := by
  induction hlen : t.length using Nat.strongRecOn generalizing t p with
  | ind n ih =>
    subst hlen
    cases t with
    | nil =>
      obtain rfl : p = [] := by simpa [pieces, piecesFrom] using h
      exact not_infix_nil hn
    | cons c t =>
      by_cases hc : needle <+: c :: t
      · obtain ⟨rest, hrest⟩ := hc
        rw [← hrest] at h ih
        rw [pieces_needle_append hn] at h
        rcases List.mem_cons.mp h with rfl | hp
        · exact not_infix_nil hn
        · exact ih _ (length_lt_append hn rest) hp rfl
      · obtain ⟨q, qs, hq⟩ := List.exists_cons_of_ne_nil (pieces_ne_nil t needle)
        have hlead : q <+: t := by
          rw [← intercalate_pieces hn t, hq]
          exact head_isPrefix_intercalate needle q qs
        rw [pieces_cons hc, hq, List.modifyHead_cons] at h
        rcases List.mem_cons.mp h with rfl | hp
        · rw [List.infix_cons_iff, not_or]
          exact ⟨fun hx => hc (hx.trans ((List.prefix_cons_inj c).mpr hlead)),
            ih _ (by simp) (hq ▸ List.mem_cons_self) rfl⟩
        · exact ih _ (by simp) (hq ▸ List.mem_cons_of_mem _ hp) rfl

theorem isInfix_intercalate {ps : List Text} (h : p ∈ ps) (sep : Text) :
    p <:+: List.intercalate sep ps := by
  induction ps with
  | nil => cases h
  | cons q ps ih =>
    rcases List.mem_cons.mp h with rfl | hp
    · exact (head_isPrefix_intercalate sep p ps).isInfix
    · rw [intercalate_cons (List.ne_nil_of_mem hp)]
      exact (ih hp).trans (List.suffix_append _ _).isInfix

theorem isInfix_of_mem_pieces (hn : needle ≠ []) {t : Text} (h : p ∈ t.pieces needle) :
    p <:+: t := by
  have hinfix := isInfix_intercalate h needle
  rwa [intercalate_pieces hn] at hinfix

/-- A separator of one character stands in no piece. -/
theorem notMem_of_mem_pieces {t : Text} (h : p ∈ t.pieces [c]) : c ∉ p := by
  rw [← List.singleton_infix_iff]
  exact not_infix_of_mem_pieces (by simp) h

theorem exists_of_mem_intercalate {ps : List Text} (h : c ∈ List.intercalate sep ps) :
    c ∈ sep ∨ ∃ p ∈ ps, c ∈ p := by
  induction ps with
  | nil => simp at h
  | cons p ps ih =>
    by_cases hps : ps = []
    · rw [hps, List.intercalate_singleton] at h
      exact .inr ⟨p, List.mem_cons_self, h⟩
    · rw [intercalate_cons hps, List.mem_append, List.mem_append] at h
      rcases h with (h | h) | h
      · exact .inr ⟨p, List.mem_cons_self, h⟩
      · exact .inl h
      · exact (ih h).imp_right fun ⟨q, hq, hc⟩ => ⟨q, List.mem_cons_of_mem _ hq, hc⟩

/-- Texts without the separator are the pieces of what they make. -/
theorem pieces_intercalate {ps : List Text} (hps : ps ≠ []) (h : ∀ p ∈ ps, c ∉ p) :
    pieces (List.intercalate [c] ps) [c] = ps := by
  have hc : [c] ≠ [] := by simp
  induction ps with
  | nil => exact absurd rfl hps
  | cons p ps ih =>
    have hp : p.pieces [c] = [p] := by
      rw [pieces_eq_singleton_iff hc, List.singleton_infix_iff]
      exact h p List.mem_cons_self
    by_cases hps : ps = []
    · rw [hps, List.intercalate_singleton, hp]
    · have hno : ¬ Crosses [c] p ([c] ++ List.intercalate [c] ps) := by
        rintro ⟨u, v, huv, hu, hv, -⟩
        rcases List.append_eq_singleton_iff.mp huv.symm with ⟨rfl, -⟩ | ⟨-, rfl⟩
        · exact hu rfl
        · exact hv rfl
      rw [intercalate_cons hps, List.append_assoc, pieces_append hc hno, pieces_needle_append hc,
        hp, ih hps fun q hq => h q (List.mem_cons_of_mem _ hq), glue_nil_cons (by simp),
        List.singleton_append]

theorem infix_cons_of_notMem (hn : needle ≠ []) (hc : c ∉ needle) {t : Text} :
    needle <:+: c :: t ↔ needle <:+: t := by
  rw [List.infix_cons_iff]
  refine or_iff_right fun h => ?_
  obtain ⟨w, rfl, -⟩ := (List.prefix_cons_iff.mp h).resolve_left hn
  exact hc List.mem_cons_self

theorem infix_concat_of_notMem (hn : needle ≠ []) (hc : c ∉ needle) {t : Text} :
    needle <:+: t ++ [c] ↔ needle <:+: t := by
  rw [List.infix_concat_iff]
  refine or_iff_right fun h => ?_
  obtain ⟨w, rfl, -⟩ := (List.suffix_concat_iff.mp h).resolve_left hn
  simp at hc

theorem replace_self (hn : needle ≠ []) (new : Text) : needle.replace needle new = new := by
  have h := replace_needle_append hn [] new
  rwa [replace_of_absent hn (not_infix_nil hn), List.append_nil, List.append_nil] at h

theorem count_self (hn : needle ≠ []) : needle.count needle = 1 := by
  have h := count_needle_append hn []
  rwa [(count_eq_zero_iff hn).mpr (not_infix_nil hn), List.append_nil] at h

theorem replace_char (hn : needle ≠ []) (hc : c ∉ needle) (new : Text) :
    replace [c] needle new = [c] := by
  refine replace_of_absent hn (fun h => ?_) new
  obtain ⟨d, w, rfl⟩ := List.exists_cons_of_ne_nil hn
  have hd : d = c := List.mem_singleton.mp (h.subset List.mem_cons_self)
  exact hc (hd ▸ List.mem_cons_self)

/-- A character that the needle has not stays where it is. -/
theorem replace_cons (hn : needle ≠ []) (hc : c ∉ needle) (t new : Text) :
    replace (c :: t) needle new = c :: t.replace needle new := by
  rw [← List.singleton_append, replace_append hn (not_crosses_of_last hc rfl), replace_char hn hc,
    List.singleton_append]

theorem replace_concat (hn : needle ≠ []) (hc : c ∉ needle) (t new : Text) :
    replace (t ++ [c]) needle new = t.replace needle new ++ [c] := by
  rw [replace_append hn (not_crosses_of_head hc rfl), replace_char hn hc]

/-- Nothing short of the whole needle both ends and begins it. -/
def Borderless (needle : Text) : Prop :=
  ∀ u v, needle = u ++ v → u ≠ [] → v ≠ [] → ¬ v <+: needle

/-- The pieces around an occurrence that is the last. -/
theorem pieces_around (hn : needle ≠ []) (hborder : Borderless needle) {behind : Text}
    (h : ¬ needle <:+: behind) (before : Text) :
    (before ++ needle ++ behind).pieces needle = before.pieces needle ++ [behind] := by
  have hno : ¬ Crosses needle before (needle ++ behind) := by
    rintro ⟨u, v, hneedle, hu, hv, -, hlead⟩
    refine hborder u v hneedle hu hv (List.prefix_of_prefix_length_le hlead
      (List.prefix_append needle behind) ?_)
    rw [hneedle, List.length_append]
    omega
  rw [List.append_assoc, pieces_append hn hno, pieces_needle_append hn,
    (pieces_eq_singleton_iff hn).mpr h, glue_nil_cons (pieces_ne_nil _ _)]

/-- How often a needle occurs in texts that are put together with a separator that keeps it
apart. -/
theorem count_intercalate_of_not_crosses (hn : needle ≠ [])
    (hleft : ∀ p rest, ¬ Crosses needle p (sep ++ rest)) (hright : ∀ rest, ¬ Crosses needle sep rest)
    (ps : List Text) : Text.count (List.intercalate sep ps) needle =
      (ps.map fun p => p.count needle).sum + (ps.length - 1) * sep.count needle := by
  induction ps with
  | nil => simpa using (count_eq_zero_iff hn).mpr (not_infix_nil hn)
  | cons p ps ih =>
    by_cases hps : ps = []
    · simp [hps]
    · obtain ⟨n, hlen⟩ := Nat.exists_eq_succ_of_ne_zero (List.length_pos_iff.mpr hps).ne'
      rw [intercalate_cons hps, List.append_assoc, count_append hn (hleft p _),
        count_append hn (hright _), ih, List.map_cons, List.sum_cons, List.length_cons, hlen,
        Nat.succ_sub_one, Nat.add_sub_cancel, Nat.succ_mul]
      omega

/-- How often a character occurs in pieces that are put together. -/
theorem count_intercalate (c : Char) (sep : Text) (ps : List Text) :
    List.count c (List.intercalate sep ps) =
      (ps.map (List.count c)).sum + (ps.length - 1) * List.count c sep := by
  induction ps with
  | nil => simp
  | cons p ps ih =>
    by_cases hps : ps = []
    · simp [hps]
    · have := List.length_pos_iff.mpr hps
      rw [intercalate_cons hps, List.count_append, List.count_append, ih, List.map_cons,
        List.sum_cons, List.length_cons, Nat.add_sub_cancel]
      have hlen : ps.length = ps.length - 1 + 1 := by omega
      rw [hlen, Nat.add_sub_cancel, Nat.succ_mul]
      omega

/-- Each replacement changes the count of a character alike. -/
theorem count_replace (hn : needle ≠ []) (c : Char) (t new : Text) :
    List.count c (t.replace needle new) + t.count needle * List.count c needle =
      List.count c t + t.count needle * List.count c new := by
  have hold := count_intercalate c needle (t.pieces needle)
  have hnew := count_intercalate c new (t.pieces needle)
  rw [intercalate_pieces hn] at hold
  rw [replace, hnew, hold, count]
  omega

section Parts

variable {α : Type} {f : α → Text}

/-- No occurrence of the needle reaches out of a part, unless it is one of those that begin with a
whole part. -/
def Sealed (needle : Text) (f : α → Text) : List α → Prop
  | [] => True
  | p :: ps => (f p = needle ∨ ¬ Crosses needle (f p) (ps.flatMap f)) ∧ Sealed needle f ps

theorem Sealed.of_append_left {ps qs : List α} (h : Sealed needle f (ps ++ qs)) :
    Sealed needle f ps := by
  induction ps with
  | nil => trivial
  | cons p ps ih =>
    refine ⟨h.1.imp_right fun hno hx => hno ?_, ih h.2⟩
    obtain ⟨u, v, hn, hu, hv, hfirst, hsecond⟩ := hx
    rw [List.append_eq, List.flatMap_append]
    exact ⟨u, v, hn, hu, hv, hfirst, hsecond.trans (List.prefix_append _ _)⟩

theorem Sealed.of_append_right {ps qs : List α} (h : Sealed needle f (ps ++ qs)) :
    Sealed needle f qs := by
  induction ps with
  | nil => exact h
  | cons p ps ih => exact ih h.2

/-- A text is replaced part by part. -/
theorem Sealed.replace_flatMap {ps : List α} (hn : needle ≠ []) (h : Sealed needle f ps)
    (new : Text) :
    replace (ps.flatMap f) needle new = ps.flatMap fun p => (f p).replace needle new := by
  induction ps with
  | nil => exact replace_of_absent hn (not_infix_nil hn) new
  | cons p ps ih =>
    rw [List.flatMap_cons, List.flatMap_cons, ← ih h.2]
    rcases h.1 with hp | hno
    · rw [hp, replace_needle_append hn, replace_self hn]
    · exact replace_append hn hno new

theorem Sealed.count_flatMap {ps : List α} (hn : needle ≠ []) (h : Sealed needle f ps) :
    count (ps.flatMap f) needle = (ps.map fun p => (f p).count needle).sum := by
  induction ps with
  | nil => exact (count_eq_zero_iff hn).mpr (not_infix_nil hn)
  | cons p ps ih =>
    rw [List.flatMap_cons, List.map_cons, List.sum_cons, ← ih h.2]
    rcases h.1 with hp | hno
    · rw [hp, count_needle_append hn, count_self hn]
    · exact count_append hn hno

/-- Parts without the needle belong to the first piece. -/
theorem Sealed.pieces_append {ps qs : List α} (hn : needle ≠ []) (h : Sealed needle f (ps ++ qs))
    (hps : ∀ p ∈ ps, ¬ needle <:+: f p) :
    pieces ((ps ++ qs).flatMap f) needle =
      (pieces (qs.flatMap f) needle).modifyHead (ps.flatMap f ++ ·) := by
  induction ps with
  | nil =>
    obtain ⟨q, rest, hq⟩ := List.exists_cons_of_ne_nil (pieces_ne_nil (qs.flatMap f) needle)
    rw [List.nil_append, hq]
    rfl
  | cons p ps ih =>
    have hp := hps p (by simp)
    rw [List.cons_append] at h
    have hno := h.1.resolve_left fun he => hp (he ▸ List.infix_refl _)
    rw [List.cons_append, List.flatMap_cons, Text.pieces_append hn hno,
      (pieces_eq_singleton_iff hn).mpr hp, ih h.2 fun q hq => hps q (by simp [hq]), glue,
      List.modifyHead_modifyHead, List.flatMap_cons]
    congr 1
    funext t
    simp

theorem Sealed.pieces_eq_singleton {ps : List α} (hn : needle ≠ []) (h : Sealed needle f ps)
    (hps : ∀ p ∈ ps, ¬ needle <:+: f p) : pieces (ps.flatMap f) needle = [ps.flatMap f] := by
  have hall : Sealed needle f (ps ++ []) := by rwa [List.append_nil]
  have hpieces := hall.pieces_append hn hps
  rw [List.append_nil, List.flatMap_nil] at hpieces
  rw [hpieces, pieces, piecesFrom, List.modifyHead_cons, List.append_nil]

/-- What ends in the needle ends in a part that does. -/
theorem Sealed.suffix_last {ps : List α} (hborder : Borderless needle)
    (h : Sealed needle f (ps ++ [p])) (hp : f p ≠ []) (hs : needle <:+ (ps ++ [p]).flatMap f) :
    needle <:+ f p := by
  induction ps with
  | nil => simpa using hs
  | cons q ps ih =>
    obtain ⟨u, hu⟩ := hs
    rw [List.cons_append, List.flatMap_cons] at hu
    have hrest : (ps ++ [p]).flatMap f ≠ [] := by simp [hp]
    rcases List.append_eq_append_iff.mp hu with ⟨w, hq, hneedle⟩ | ⟨w, _, hsuffix⟩
    · by_cases hw : w = []
      · exact ih h.2 ⟨[], by simp [hneedle, hw]⟩
      · -- The needle would begin in the first part and end behind it.
        exfalso
        rw [List.cons_append] at h
        rcases h.1 with he | hno
        · rw [hq] at he
          refine hborder u w he.symm ?_ hw ⟨_, hneedle.symm⟩
          rintro rfl
          rw [List.nil_append] at he
          rw [he, List.self_eq_append_right] at hneedle
          exact hrest hneedle
        · exact hno ⟨w, _, hneedle, hw, hrest, ⟨u, hq.symm⟩, List.prefix_refl _⟩
    · exact ih h.2 ⟨w, hsuffix.symm⟩

/-- An occurrence stands inside one part, if no part is the needle itself. -/
theorem Sealed.exists_part {ps : List α} (hn : needle ≠ []) (h : Sealed needle f ps)
    (hps : ∀ p ∈ ps, f p ≠ needle) (hocc : ps.flatMap f = front ++ needle ++ back) :
    ∃ p ∈ ps, ∃ a u v, f p = u ++ needle ++ v ∧ front = a ++ u := by
  induction ps generalizing front with
  | nil => simp [hn] at hocc
  | cons p ps ih =>
    have hno := h.1.resolve_left (hps p List.mem_cons_self)
    have hrest : ∀ front', ps.flatMap f = front' ++ needle ++ back → front = f p ++ front' →
        ∃ q ∈ p :: ps, ∃ a u v, f q = u ++ needle ++ v ∧ front = a ++ u := by
      intro front' hocc' hfront
      obtain ⟨q, hq, a, u, v, hpart, rfl⟩ :=
        ih h.2 (fun q hq => hps q (List.mem_cons_of_mem _ hq)) hocc'
      exact ⟨q, List.mem_cons_of_mem _ hq, f p ++ a, u, v, hpart, by rw [hfront, List.append_assoc]⟩
    rw [List.flatMap_cons, List.append_assoc] at hocc
    rcases List.append_eq_append_iff.mp hocc with ⟨w, hfront, hbehind⟩ | ⟨w, hpart, hbehind⟩
    · exact hrest w (by rw [List.append_assoc]; exact hbehind) hfront
    rcases List.append_eq_append_iff.mp hbehind with ⟨v, rfl, -⟩ | ⟨v, hneedle, hflat⟩
    · exact ⟨p, List.mem_cons_self, [], front, v, by rw [hpart, List.append_assoc], rfl⟩
    by_cases hw : w = []
    · rw [hw, List.nil_append] at hneedle
      refine hrest [] (by rw [hflat, hneedle]; rfl) ?_
      rw [hpart, hw, List.append_nil, List.append_nil]
    by_cases hv : v = []
    · refine ⟨p, List.mem_cons_self, [], front, [], ?_, rfl⟩
      rw [hpart, hneedle, hv, List.append_nil, List.append_nil]
    -- The needle begins in this part and ends behind it.
    exact absurd ⟨w, v, hneedle, hw, hv, ⟨front, hpart.symm⟩, ⟨back, hflat.symm⟩⟩ hno

end Parts
end GadgetBuild.Text
