import Mathlib.Data.List.Chain
import GadgetBuild.Proofs.Template.Parts

/-!
Templates in which no filling of one place makes or breaks another. Marks are found in such a
template where they stand in it and, but for those inside the fillings, nowhere else, whichever
places are filled.
-/

namespace GadgetBuild.Template

/-- What may stand behind a part. The banner's place begins a line, the footer's ends one, and no
letter of a mark stands behind a quote that another mark ends with. -/
def Beside (p q : Part) : Prop :=
  (q = .mark .header → p = .char '\n' ∨ p = .mark .header) ∧
    (p = .mark .footer → q = .char '\n' ∨ q = .char '\r') ∧
    (p = .mark .modules ∨ p = .mark .script → q ∉ Mark.letters.map .char)

instance (p q : Part) : Decidable (Beside p q) :=
  inferInstanceAs (Decidable (_ ∧ _ ∧ _))

/-- A blank of the template. -/
def Part.isBlank : Part → Bool
  | .char c => GadgetBuild.isBlank c
  | .mark _ => false

/-- What may stand behind a part when blanks are left out: the script's place has its own line, with
neither the banner's nor the footer's place on it or, up to blanks, above it. -/
def Apart (p q : Part) : Prop :=
  q = .mark .script → p ≠ .mark .header ∧ p ≠ .mark .footer

instance (p q : Part) : Decidable (Apart p q) :=
  inferInstanceAs (Decidable (_ → _))

/-- A template whose places keep out of each other's way. -/
structure Settled (ps : List Part) : Prop where
  beside : ps.IsChain Beside
  apart : (ps.filter fun p => !p.isBlank).IsChain Apart
  last : ps.getLast? ≠ some (.mark .header)

/-- The shapes of the texts that fill a place. -/
def Fits : Mark → Text → Prop
  | .modules, t => '[' ∈ t.head? ∧ ']' ∈ t.getLast?
  | .header, t => t = [] ∨ '/' ∈ t.head? ∧ '\n' ∈ t.getLast?
  | .footer, t => t = [] ∨ '/' ∈ t.head?
  | .script, _ => False

/-- The places before `k`'s may be filled; from there on they are spelled. -/
structure Filled (k : Mark) (r : Mark → Text) : Prop where
  later : ∀ m, k.stage ≤ m.stage → r m = m.text
  earlier : ∀ m, m.stage < k.stage → r m = m.text ∨ Fits m (r m)

theorem Filled.spelled (k : Mark) : Filled k Mark.text :=
  ⟨fun _ _ => rfl, fun _ _ => .inl rfl⟩

theorem Filled.spelled_or_fits {k : Mark} {r : Mark → Text} (h : Filled k r) (m : Mark) :
    r m = m.text ∨ m.stage < k.stage ∧ Fits m (r m) := by
  rcases Nat.lt_or_ge m.stage k.stage with hlt | hle
  · exact (h.earlier m hlt).imp_right (⟨hlt, ·⟩)
  · exact .inl (h.later m hle)

namespace Mark

theorem bracket_notMem (k : Mark) : '[' ∉ k.text ∧ ']' ∉ k.text := by
  cases k <;> decide

theorem slash_notMem (k : Mark) : '/' ∉ k.text := by
  cases k <;> decide

theorem carriageReturn_notMem (k : Mark) : '\r' ∉ k.text := by
  cases k <;> decide

theorem eq_header {k : Mark} (h : '\n' ∈ k.text) : k = header := by
  revert h
  cases k <;> decide

theorem not_letter (m : Mark) (hc : c ∈ letters) : ¬ c :: v <+: m.text ++ t := by
  intro h
  have hquote : ∃ w, m.text = '\'' :: w := by
    cases m <;> exact ⟨_, rfl⟩
  obtain ⟨w, hw⟩ := hquote
  rw [hw, List.cons_append, List.cons_prefix_cons] at h
  rw [h.1] at hc
  exact absurd hc (by decide)

/-- No mark begins inside another, but with its whole spelling. -/
theorem not_prefix_of_tail {m k : Mark} (hk : k.text = u ++ v) (hu : u ≠ []) : ¬ m.text <+: v := by
  intro h
  have hin : m.text <:+: k.text := h.isInfix.trans ⟨u, [], by simp [hk]⟩
  have hlen := h.length_le
  have hpos := List.length_pos_iff.mpr hu
  rw [eq_of_isInfix hin, hk, List.length_append] at hlen
  omega

end Mark

section Filled

variable {k : Mark} {r : Mark → Text} {ps : List Part}

/-- The banner's place is the second that is filled. -/
theorem ne_header {m : Mark} (h : m.stage < k.stage) (hm : m ≠ .modules) : k ≠ .header := by
  rintro rfl
  revert hm h
  cases m <;> decide

/-- What a place shows is its mark, begins with a character of no mark or is nothing. -/
theorem Filled.shows (h : Filled k r) (m : Mark) :
    r m = m.text ∨ (∃ c ∈ (r m).head?, c ∉ k.text) ∨
      r m = [] ∧ m.stage < k.stage ∧ (m = .header ∨ m = .footer) := by
  refine (h.spelled_or_fits m).imp_right fun ⟨hlt, hfits⟩ => ?_
  cases m with
  | modules => exact .inl ⟨_, hfits.1, k.bracket_notMem.1⟩
  | header => exact hfits.symm.imp (fun hs => ⟨_, hs.1, k.slash_notMem⟩) (⟨·, hlt, .inl rfl⟩)
  | footer => exact hfits.symm.imp (fun hs => ⟨_, hs, k.slash_notMem⟩) (⟨·, hlt, .inr rfl⟩)
  | script => exact hfits.elim

/-- What stands behind the footer's place begins like no mark. -/
theorem not_prefix_behind_footer (hchain : (.mark .footer :: ps).IsChain Beside) (hk : k ≠ .header)
    (ha : a ∈ k.text) (v : Text) : ¬ a :: v <+: rendered r ps := by
  intro hv
  cases ps with
  | nil => simp at hv
  | cons q ps =>
    rcases (List.isChain_cons_cons.mp hchain).1.2.1 rfl with rfl | rfl
    · rw [rendered_char, List.cons_prefix_cons] at hv
      exact hk (Mark.eq_header (hv.1 ▸ ha))
    · rw [rendered_char, List.cons_prefix_cons] at hv
      exact k.carriageReturn_notMem (hv.1 ▸ ha)

/-- Behind the first characters of a mark, what goes on with it goes on in the template itself. -/
theorem Filled.prefix_source (h : Filled k r) (hchain : (p :: ps).IsChain Beside)
    (hp : p ≠ .mark .header) (hp' : p = .char '\n' → k = .header) (hk : k.text = u ++ v)
    (hu : u ≠ []) (hv : v <+: rendered r ps) : v <+: source ps := by
  induction ps generalizing p u v with
  | nil => exact hv
  | cons q ps ih =>
    obtain ⟨hbeside, hchain⟩ := List.isChain_cons_cons.mp hchain
    cases v with
    | nil => exact List.nil_prefix
    | cons a v =>
      have ha : a ∈ k.text := by simp [hk]
      cases q with
      | char c =>
        rw [rendered_char, List.cons_prefix_cons] at hv
        obtain ⟨rfl, hv⟩ := hv
        rw [source_char, List.cons_prefix_cons]
        exact ⟨rfl, ih hchain (by simp) (fun he => Mark.eq_header (Part.char.inj he ▸ ha))
          (u := u ++ [a]) (by simp [hk]) (by simp) hv⟩
      | mark m =>
        rw [rendered_mark] at hv
        rcases h.shows m with he | ⟨c, hc, hno⟩ | ⟨he, hlt, hm⟩
        · rw [he] at hv
          rcases List.prefix_or_prefix_of_prefix hv (List.prefix_append m.text _) with hw | hw
          · exact hw.trans (List.prefix_append _ _)
          · exact absurd hw (Mark.not_prefix_of_tail hk hu)
        · exfalso
          obtain ⟨t, ht⟩ := List.head?_eq_some_iff.mp hc
          rw [ht, List.cons_append, List.cons_prefix_cons] at hv
          exact hno (hv.1 ▸ ha)
        · exfalso
          rw [he, List.nil_append] at hv
          rcases hm with rfl | rfl
          · rcases hbeside.1 rfl with hfeed | hheader
            · rw [hp' hfeed] at hlt
              exact absurd hlt (by decide)
            · exact hp hheader
          · exact not_prefix_behind_footer hchain (ne_header hlt (by decide)) ha v hv

theorem Filled.not_crosses_char (h : Filled k r) (hparsed : Parsed (.char c :: ps))
    (hchain : (.char c :: ps).IsChain Beside) : ¬ Text.Crosses k.text [c] (rendered r ps) := by
  rintro ⟨u, v, hk, hu, -, hfirst, hsecond⟩
  have huc : u = [c] := (List.suffix_cons_iff.mp hfirst).resolve_right (by simpa using hu)
  have hc : c ∈ k.text := by simp [hk, huc]
  have hv := h.prefix_source hchain (by simp)
    (fun he => Mark.eq_header (Part.char.inj he ▸ hc)) hk hu hsecond
  refine hparsed.1 k ?_
  rw [hk, huc]
  exact (List.prefix_append_right_inj [c]).mpr hv

theorem Filled.not_crosses_mark (h : Filled k r) (hm : m ≠ k)
    (hchain : (.mark m :: ps).IsChain Beside) :
    ¬ Text.Crosses k.text m.text (rendered r ps) := by
  rintro ⟨u, v, hk, hu, -, hfirst, hsecond⟩
  obtain ⟨hmark, c, hc, hhead⟩ := Mark.overlap hm hk hu hfirst
  obtain ⟨w, rfl⟩ := List.head?_eq_some_iff.mp hhead
  have hheader : Part.mark m ≠ .mark .header := by
    rcases hmark with rfl | rfl <;> decide
  have hv := h.prefix_source hchain hheader (by simp) hk hu hsecond
  cases ps with
  | nil => simp [source] at hv
  | cons q ps =>
    cases q with
    | char d =>
      rw [source_char, List.cons_prefix_cons] at hv
      have hquote := hmark.imp (congrArg Part.mark) (congrArg Part.mark)
      exact (List.isChain_cons_cons.mp hchain).1.2.2 hquote (List.mem_map_of_mem (hv.1 ▸ hc))
    | mark n => exact Mark.not_letter n hc (v := w) hv

theorem Fits.not_crosses (hfits : Fits m t) (hlt : m.stage < k.stage)
    (hchain : (.mark m :: ps).IsChain Beside) : ¬ Text.Crosses k.text t (rendered r ps) := by
  cases m with
  | modules => exact Text.not_crosses_of_last k.bracket_notMem.2 hfits.2
  | header =>
    rcases hfits with rfl | ⟨-, hlast⟩
    · exact Text.not_crosses_nil
    · exact Text.not_crosses_of_last (mt Mark.eq_header (ne_header hlt (by decide))) hlast
  | footer =>
    rintro ⟨u, v, hk, -, hv, -, hsecond⟩
    obtain ⟨a, v, rfl⟩ := List.exists_cons_of_ne_nil hv
    exact not_prefix_behind_footer hchain (ne_header hlt (by decide)) (by simp [hk]) v hsecond
  | script => exact hfits.elim

/-- No mark reaches out of a part of the template. -/
theorem Filled.sealed (h : Filled k r) (hparsed : Parsed ps) (hchain : ps.IsChain Beside) :
    Text.Sealed k.text (Part.text r) ps := by
  induction ps with
  | nil => trivial
  | cons p ps ih =>
    cases p with
    | char c => exact ⟨.inr (h.not_crosses_char hparsed hchain), ih hparsed.2 hchain.tail⟩
    | mark m =>
      refine ⟨?_, ih hparsed hchain.tail⟩
      rw [Part.text]
      rcases h.spelled_or_fits m with he | ⟨hlt, hfits⟩
      · rw [he]
        by_cases hm : m = k
        · exact .inl (hm ▸ rfl)
        · exact .inr (h.not_crosses_mark hm hchain)
      · exact .inr (hfits.not_crosses hlt hchain)

end Filled
end GadgetBuild.Template
