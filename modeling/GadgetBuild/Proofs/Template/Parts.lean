import Mathlib.Data.List.Infix
import GadgetBuild.Proofs.Text.Pieces
import GadgetBuild.Template

/-!
A template read once, from the left, as characters and marks. A mark is the spelling of a place.
What stands in the places is told apart from the template around them, so that the template can be
shown with its places spelled or filled.
-/

namespace GadgetBuild.Template

/-- The places of a template, in the order in which they are filled. -/
inductive Mark where
  | modules
  | header
  | footer
  | script
  deriving DecidableEq, Repr

namespace Mark

def text : Mark → Text
  | modules => modulesMark
  | header => headerMark
  | footer => footerMark
  | script => scriptMark

/-- The place of a mark in the order. -/
def stage : Mark → Nat
  | modules => 0
  | header => 1
  | footer => 2
  | script => 3

theorem text_ne_nil (m : Mark) : m.text ≠ [] := by
  cases m <;> decide

theorem not_infix_char (k : Mark) (c : Char) : ¬ k.text <:+: [c] := by
  intro h
  have hshort : k.text.length ≤ 1 := h.length_le
  exact absurd hshort (by cases k <;> decide)

/-- No mark is spelled inside another. -/
theorem eq_of_isInfix {m k : Mark} (h : m.text <:+: k.text) : m = k := by
  revert h
  cases m <;> cases k <;> decide

theorem eq_of_isPrefix {m k : Mark} (hm : m.text <+: t) (hk : k.text <+: t) : m = k := by
  rcases List.prefix_or_prefix_of_prefix hm hk with h | h
  · exact eq_of_isInfix h.isInfix
  · exact (eq_of_isInfix h.isInfix).symm

/-- The letters that a mark can begin with, behind its quote. -/
def letters : Text :=
  "mhfs".toList

/-- Two marks overlap in a quote alone. -/
theorem overlap {m k : Mark} (hne : m ≠ k) (hk : k.text = u ++ v) (hu : u ≠ [])
    (hm : u <:+ m.text) : (m = modules ∨ m = script) ∧ ∃ c ∈ letters, c ∈ v.head? := by
  have hquote : ∀ u ∈ m.text.tails, u ≠ [] → u <+: k.text →
      u = ['\''] ∧ (m = modules ∨ m = script) := by
    revert hne
    cases m <;> cases k <;> decide
  obtain ⟨rfl, hmark⟩ := hquote u ((List.mem_tails u m.text).mpr hm) hu ⟨v, hk.symm⟩
  refine ⟨hmark, ?_⟩
  have hv : v = k.text.drop 1 := by simp [hk]
  rw [hv]
  cases k with
  | modules => exact ⟨'m', by decide, rfl⟩
  | header => exact ⟨'h', by decide, rfl⟩
  | footer => exact ⟨'f', by decide, rfl⟩
  | script => exact ⟨'s', by decide, rfl⟩

end Mark

/-- A character of a template, or one of its places. -/
inductive Part where
  | char (c : Char)
  | mark (m : Mark)
  deriving DecidableEq, Repr

/-- What is read in a part when `r` stands in the places. -/
def Part.text (r : Mark → Text) : Part → Text
  | .char c => [c]
  | .mark m => r m

def rendered (r : Mark → Text) (ps : List Part) : Text :=
  ps.flatMap (Part.text r)

/-- The template itself. -/
def source (ps : List Part) : Text :=
  rendered Mark.text ps

section Rendered

variable {r : Mark → Text}

@[simp] theorem rendered_nil : rendered r [] = [] := rfl

@[simp] theorem rendered_char (c : Char) (ps : List Part) :
    rendered r (.char c :: ps) = c :: rendered r ps := rfl

@[simp] theorem rendered_mark (m : Mark) (ps : List Part) :
    rendered r (.mark m :: ps) = r m ++ rendered r ps := rfl

@[simp] theorem rendered_append (ps qs : List Part) :
    rendered r (ps ++ qs) = rendered r ps ++ rendered r qs := List.flatMap_append

@[simp] theorem rendered_chars (t : Text) : rendered r (t.map .char) = t := by
  induction t with
  | nil => rfl
  | cons c t ih => rw [List.map_cons, rendered_char, ih]

theorem rendered_congr {r' : Mark → Text} {ps : List Part} (h : ∀ m, .mark m ∈ ps → r m = r' m) :
    rendered r ps = rendered r' ps := by
  refine List.flatMap_congr fun p hp => ?_
  cases p with
  | char c => rfl
  | mark m => exact h m hp

end Rendered

@[simp] theorem source_char (c : Char) (ps : List Part) : source (.char c :: ps) = c :: source ps :=
  rfl

@[simp] theorem source_mark (m : Mark) (ps : List Part) :
    source (.mark m :: ps) = m.text ++ source ps := rfl

@[simp] theorem source_append (ps qs : List Part) : source (ps ++ qs) = source ps ++ source qs :=
  rendered_append ps qs

/-- The mark that a text begins with. -/
def markAt? (t : Text) : Option Mark :=
  [Mark.modules, .header, .footer, .script].find? fun m => m.text.isPrefixOf t

/-- The parts of a template. The number counts the characters of the last mark that are still to be
passed over. -/
def partsFrom : Nat → Text → List Part
  | _, [] => []
  | skip + 1, _ :: t => partsFrom skip t
  | 0, c :: t =>
    match markAt? (c :: t) with
    | some m => .mark m :: partsFrom (m.text.length - 1) t
    | none => .char c :: partsFrom 0 t

def parts (t : Text) : List Part :=
  partsFrom 0 t

/-- No mark is spelled by characters of the template. -/
def Parsed : List Part → Prop
  | [] => True
  | .char c :: ps => (∀ m : Mark, ¬ m.text <+: c :: source ps) ∧ Parsed ps
  | .mark _ :: ps => Parsed ps

theorem markAt?_eq_none_iff {t : Text} : markAt? t = none ↔ ∀ m : Mark, ¬ m.text <+: t := by
  simp only [markAt?, List.find?_eq_none, List.isPrefixOf_iff_prefix]
  constructor
  · intro h m
    exact h m (by cases m <;> decide)
  · intro h m _
    exact h m

theorem markAt?_eq_some_iff {t : Text} : markAt? t = some m ↔ m.text <+: t := by
  constructor
  · intro h
    have hm := List.find?_some h
    exact List.isPrefixOf_iff_prefix.mp hm
  · intro h
    cases hfound : markAt? t with
    | none => exact absurd h (markAt?_eq_none_iff.mp hfound m)
    | some k =>
      have hk := List.find?_some hfound
      rw [Mark.eq_of_isPrefix (List.isPrefixOf_iff_prefix.mp hk) h]

theorem source_partsFrom (skip : Nat) (t : Text) : source (partsFrom skip t) = t.drop skip := by
  fun_induction partsFrom skip t with
  | case1 skip => simp [source]
  | case2 skip c t ih => simpa using ih
  | case3 c t m hm ih =>
    obtain ⟨rest, hrest⟩ := markAt?_eq_some_iff.mp hm
    obtain ⟨d, lead, hd⟩ := List.exists_cons_of_ne_nil m.text_ne_nil
    rw [source_mark, ih, hd, List.length_cons, Nat.add_sub_cancel]
    rw [hd, List.cons_append] at hrest
    obtain ⟨rfl, rfl⟩ := List.cons.inj hrest
    simp
  | case4 c t hm ih => simpa using ih

@[simp] theorem source_parts (t : Text) : source (parts t) = t :=
  source_partsFrom 0 t

theorem parsed_partsFrom (skip : Nat) (t : Text) : Parsed (partsFrom skip t) := by
  fun_induction partsFrom skip t with
  | case1 skip => trivial
  | case2 skip c t ih => exact ih
  | case3 c t m hm ih => exact ih
  | case4 c t hm ih =>
    refine ⟨?_, ih⟩
    rw [source_partsFrom]
    exact markAt?_eq_none_iff.mp hm

theorem parsed_parts (t : Text) : Parsed (parts t) :=
  parsed_partsFrom 0 t

theorem partsFrom_skip (p t : Text) : partsFrom p.length (p ++ t) = partsFrom 0 t := by
  induction p with
  | nil => rfl
  | cons c p ih => rw [List.length_cons, List.cons_append, partsFrom, ih]

/-- There is one way to read a template. -/
theorem Parsed.parts_source {ps : List Part} (h : Parsed ps) : parts (source ps) = ps := by
  induction ps with
  | nil => rfl
  | cons p ps ih =>
    cases p with
    | char c =>
      rw [source_char, parts, partsFrom, markAt?_eq_none_iff.mpr h.1]
      exact congrArg (.char c :: ·) (ih h.2)
    | mark m =>
      have hm := markAt?_eq_some_iff.mpr (List.prefix_append m.text (source ps))
      obtain ⟨d, lead, hd⟩ := List.exists_cons_of_ne_nil m.text_ne_nil
      rw [hd, List.cons_append] at hm
      rw [source_mark, parts, hd, List.cons_append, partsFrom, hm]
      dsimp only
      rw [hd, List.length_cons, Nat.add_sub_cancel, partsFrom_skip]
      exact congrArg (.mark m :: ·) (ih h)

theorem Parsed.of_append_left {ps qs : List Part} (h : Parsed (ps ++ qs)) : Parsed ps := by
  induction ps with
  | nil => trivial
  | cons p ps ih =>
    cases p with
    | char c =>
      refine ⟨fun m hm => h.1 m (hm.trans ?_), ih h.2⟩
      rw [List.append_eq, source_append, ← List.cons_append]
      exact List.prefix_append _ _
    | mark m => exact ih h

theorem Parsed.of_isPrefix {ps qs : List Part} (h : Parsed qs) (hlead : ps <+: qs) : Parsed ps := by
  obtain ⟨rest, rfl⟩ := hlead
  exact h.of_append_left

theorem Parsed.of_append_right {ps qs : List Part} (h : Parsed (ps ++ qs)) : Parsed qs := by
  induction ps with
  | nil => exact h
  | cons p ps ih =>
    cases p with
    | char c => exact ih h.2
    | mark m => exact ih h

end GadgetBuild.Template
