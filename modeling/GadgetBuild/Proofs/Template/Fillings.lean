import Mathlib.Data.List.DropRight
import GadgetBuild.Proofs.Json.Lines
import GadgetBuild.Proofs.Template.Settled

/-!
What fills the places of a template, and what they show while one place after the other is filled.
-/

namespace GadgetBuild.Template

/-- What fills a place. The script's stays as it is while the template is expanded. -/
def Mark.fill (s : Settings) : Mark → Text
  | .modules => Json.tabbedTexts s.modules
  | .header => Template.header s.banner
  | .footer => Template.footer s.footer
  | .script => scriptMark

theorem trimEnd_cons (hc : isBlank c = false) (t : Text) :
    ∃ w, Text.trimEnd (c :: t) = c :: w ∧ w <+: t := by
  have hne : List.rdropWhile isBlank (c :: t) ≠ [] := by
    rw [ne_eq, List.rdropWhile_eq_nil_iff]
    simp [hc]
  have hlead := List.rdropWhile_prefix isBlank (l := c :: t)
  exact (List.prefix_cons_iff.mp hlead).resolve_left hne

/-- A comment begins with a slash. -/
theorem commentLine_cons (line : Text) :
    ∃ w, Text.trim ("// ".toList ++ line) = '/' :: w ∧ w <+: '/' :: ' ' :: line := by
  obtain ⟨w, hw, hlead⟩ := trimEnd_cons (c := '/') (by decide) ('/' :: ' ' :: line)
  exact ⟨w, hw ▸ rfl, hlead⟩

theorem commentLines_cons (t : Text) : ∃ w, commentLines t = '/' :: w := by
  obtain ⟨line, lines, hlines⟩ :=
    List.exists_cons_of_ne_nil (Text.piecesFrom_ne_nil ['\n'] 0 t)
  obtain ⟨w, hw, -⟩ := commentLine_cons line
  rw [commentLines, Text.pieces, hlines, List.map_cons, hw]
  cases lines.map fun line => Text.trim ("// ".toList ++ line) with
  | nil => exact ⟨w, List.intercalate_singleton⟩
  | cons p ps =>
    exact ⟨_, by rw [List.intercalate_cons_cons, List.cons_append, List.cons_append]⟩

theorem header_fits (banner : Option Text) : Fits .header (header banner) := by
  cases banner with
  | none => exact .inl rfl
  | some t =>
    refine .inr ?_
    obtain ⟨w, hw⟩ := commentLines_cons t
    obtain ⟨x, hx, -⟩ := trimEnd_cons (c := '/') (by decide) w
    have hlines : ((Option.map commentLines (some t)).getD []).trimEnd = '/' :: x := by
      rw [← hx, ← hw]
      rfl
    rw [header, hlines, if_neg (by simp)]
    exact ⟨rfl, List.getLast?_concat⟩

theorem footer_fits (text : Option Text) : Fits .footer (footer text) := by
  cases text with
  | none => exact .inl rfl
  | some t =>
    refine .inr ?_
    obtain ⟨w, hw⟩ := commentLines_cons t
    have hlines : footer (some t) = '/' :: w := by
      rw [← List.dropWhile_cons_of_neg (p := isBlank) (by decide), ← hw]
      rfl
    rw [hlines]
    rfl

theorem Mark.fill_fits (s : Settings) {m : Mark} (hm : m ≠ .script) : Fits m (m.fill s) := by
  cases m with
  | modules => exact Json.tabbedTexts_brackets s.modules
  | header => exact header_fits s.banner
  | footer => exact footer_fits s.footer
  | script => exact absurd rfl hm

/-- The list of modules, in which no line ends in a semicolon, never spells the banner's place. -/
theorem headerMark_not_infix_modules (s : Settings) :
    ¬ headerMark <:+: Mark.modules.fill s := by
  intro h
  have hend : [';', '\n'] <:+: headerMark := ⟨"'header'".toList, [], by decide⟩
  have hlines : [';', '\n'] <:+: Json.tabbedTexts s.modules := hend.trans h
  have hchain := List.IsChain.infix (Json.unfinished_tabbedTexts s.modules).1 hlines
  exact (List.isChain_cons_cons.mp hchain).1 rfl rfl

/-- What the places show when also `k`'s is filled. -/
def refill (s : Settings) (k : Mark) (r : Mark → Text) : Mark → Text :=
  fun m => (r m).replace k.text (k.fill s)

/-- What the places show in the expanded template. -/
def shown (s : Settings) : Mark → Text :=
  refill s .footer (refill s .header (refill s .modules Mark.text))

section Refill

variable {s : Settings} {k k' : Mark} {r : Mark → Text} {ps : List Part}

theorem replace_mark (hm : m ≠ k) (new : Text) : m.text.replace k.text new = m.text :=
  Text.replace_of_absent k.text_ne_nil (fun h => hm (Mark.eq_of_isInfix h).symm) new

/-- A filling keeps its shape when marks inside it are replaced. -/
theorem Fits.replace (h : Fits m t) (hlt : m.stage < k.stage) (new : Text) :
    Fits m (t.replace k.text new) := by
  have hhead : ∀ c, c ∉ k.text → c ∈ t.head? → c ∈ (t.replace k.text new).head? := by
    intro c hc ht
    obtain ⟨w, rfl⟩ := List.head?_eq_some_iff.mp ht
    rw [Text.replace_cons k.text_ne_nil hc]
    rfl
  have hlast : ∀ c, c ∉ k.text → c ∈ t.getLast? → c ∈ (t.replace k.text new).getLast? := by
    intro c hc ht
    obtain ⟨w, rfl⟩ := List.getLast?_eq_some_iff.mp ht
    rw [Text.replace_concat k.text_ne_nil hc]
    exact List.getLast?_concat
  have hnil : Text.replace [] k.text new = [] :=
    Text.replace_of_absent k.text_ne_nil (Text.not_infix_nil k.text_ne_nil) new
  cases m with
  | modules => exact h.imp (hhead _ k.bracket_notMem.1) (hlast _ k.bracket_notMem.2)
  | header =>
    rcases h with rfl | ⟨hfirst, hend⟩
    · exact .inl hnil
    · have hfeed := mt Mark.eq_header (ne_header hlt (by decide))
      exact .inr ⟨hhead _ k.slash_notMem hfirst, hlast _ hfeed hend⟩
  | footer =>
    rcases h with rfl | hfirst
    · exact .inl hnil
    · exact .inr (hhead _ k.slash_notMem hfirst)
  | script => exact h

theorem Filled.next (h : Filled k r) (hk : k'.stage = k.stage + 1) :
    Filled k' (refill s k r) := by
  refine ⟨fun m hm => ?_, fun m hm => ?_⟩
  · have hne : m ≠ k := by
      rintro rfl
      omega
    rw [refill, h.later m (by omega), replace_mark hne]
  · by_cases hmk : m = k
    · subst hmk
      refine .inr ?_
      rw [refill, h.later m (Nat.le_refl _), Text.replace_self m.text_ne_nil]
      refine Mark.fill_fits s ?_
      rintro rfl
      cases k' <;> exact absurd hk (by decide)
    · rw [refill]
      rcases h.spelled_or_fits m with he | ⟨hlt, hfits⟩
      · exact .inl (by rw [he, replace_mark hmk])
      · exact .inr (hfits.replace hlt _)

/-- Replacing a mark throughout a text fills the place and what the other places show. -/
theorem rendered_refill (h : Text.Sealed k.text (Part.text r) ps) :
    rendered (refill s k r) ps = (rendered r ps).replace k.text (k.fill s) := by
  rw [rendered, rendered, h.replace_flatMap k.text_ne_nil]
  refine List.flatMap_congr fun p _ => ?_
  cases p with
  | char c => exact (Text.replace_of_absent k.text_ne_nil (k.not_infix_char c) _).symm
  | mark m => rfl

theorem refill_self (h : r k = k.text) : refill s k r k = k.fill s := by
  rw [refill, h, Text.replace_self k.text_ne_nil]

theorem refill_spelled (h : r m = m.text) (hm : m ≠ k) : refill s k r m = m.text := by
  rw [refill, h, replace_mark hm]

/-- In the list of modules and in the banner, the footer's place is filled as well. -/
theorem shown_early {m : Mark} (hm : m = .modules ∨ m = .header) :
    shown s m = (m.fill s).replace footerMark (footer s.footer) := by
  rcases hm with rfl | rfl
  · have hmodules : refill s .modules Mark.text .modules = _ := refill_self rfl
    rw [shown, refill, refill, hmodules]
    exact congrArg (Text.replace · footerMark _)
      (Text.replace_of_absent (by decide) (headerMark_not_infix_modules s) _)
  · have hmodules : refill s .modules Mark.text .header = _ := refill_spelled rfl (by decide)
    rw [shown, refill, refill_self hmodules]
    rfl

theorem shown_late {m : Mark} (hm : m = .footer ∨ m = .script) : shown s m = m.fill s := by
  have hmodules : refill s .modules Mark.text m = m.text :=
    refill_spelled rfl (by rcases hm with rfl | rfl <;> decide)
  have hheader : refill s .header (refill s .modules Mark.text) m = m.text :=
    refill_spelled hmodules (by rcases hm with rfl | rfl <;> decide)
  rcases hm with rfl | rfl
  · exact refill_self hheader
  · exact refill_spelled hheader (by decide)

end Refill
end GadgetBuild.Template
