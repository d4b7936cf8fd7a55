import GadgetBuild.Proofs.Template.Fillings

/-!
The expanded template, part by part: every place but the script's is filled, and the line break
behind the last place of the footer is gone if the template ends there.
-/

namespace GadgetBuild.Template

theorem isLineBreak_iff {t : Text} : isLineBreak t = true ↔ t = ['\n'] ∨ t = ['\r', '\n'] := by
  simp [isLineBreak]

/-- The parts of a template without a line break that ends it right behind a place of the footer. -/
def withoutBreak : List Part → List Part
  | [] => []
  | p :: ps =>
    if p = .mark .footer ∧ (ps = ['\n'].map .char ∨ ps = ['\r', '\n'].map .char) then [p]
    else p :: withoutBreak ps

theorem withoutBreak_footer (hb : isLineBreak b) (ps : List Part) :
    withoutBreak (ps ++ .mark .footer :: b.map .char) = ps ++ [.mark .footer] := by
  induction ps with
  | nil => rcases isLineBreak_iff.mp hb with rfl | rfl <;> rfl
  | cons p ps ih =>
    have hmem : Part.mark .footer ∈ ps ++ .mark .footer :: b.map .char := by simp
    rw [List.cons_append, withoutBreak, if_neg, ih, List.cons_append]
    rintro ⟨-, he | he⟩ <;> simp [he] at hmem

theorem withoutBreak_eq_self {ps : List Part}
    (h : ∀ qs b, isLineBreak b → ps ≠ qs ++ .mark .footer :: b.map .char) :
    withoutBreak ps = ps := by
  induction ps with
  | nil => rfl
  | cons p ps ih =>
    rw [withoutBreak, if_neg, ih fun qs b hb he => h (p :: qs) b hb (by rw [he, List.cons_append])]
    rintro ⟨rfl, rfl | rfl⟩
    · exact h [] ['\n'] (by decide) rfl
    · exact h [] ['\r', '\n'] (by decide) rfl

/-- Before the script's place there is no line break to take away. -/
theorem withoutBreak_script (ps qs : List Part) :
    withoutBreak (ps ++ .mark .script :: qs) = ps ++ .mark .script :: withoutBreak qs := by
  induction ps with
  | nil => rw [List.nil_append, withoutBreak, if_neg (by simp), List.nil_append]
  | cons p ps ih =>
    have hmem : Part.mark .script ∈ ps ++ .mark .script :: qs := by simp
    rw [List.cons_append, withoutBreak, if_neg, ih, List.cons_append]
    rintro ⟨-, he | he⟩ <;> simp [he] at hmem

theorem withoutBreak_isPrefix (ps : List Part) : withoutBreak ps <+: ps := by
  induction ps with
  | nil => exact List.prefix_refl _
  | cons p ps ih =>
    rw [withoutBreak]
    split
    · exact ⟨ps, rfl⟩
    · exact (List.prefix_cons_inj p).mpr ih

theorem count_mark_withoutBreak (m : Mark) (ps : List Part) :
    (withoutBreak ps).count (.mark m) = ps.count (.mark m) := by
  induction ps with
  | nil => rfl
  | cons p ps ih =>
    rw [withoutBreak]
    split
    · rename_i h
      rcases h.2 with rfl | rfl <;> simp [List.count_cons]
    · rw [List.count_cons, List.count_cons, ih]

theorem mark_mem_withoutBreak {ps : List Part} : .mark m ∈ withoutBreak ps ↔ .mark m ∈ ps := by
  rw [← List.count_pos_iff, count_mark_withoutBreak, List.count_pos_iff]

section FooterPieces

theorem footerPieces_concat {ps : List Text} (h : ps ≠ []) (last : Text) :
    footerPieces (ps ++ [last]) = ps ++ [if isLineBreak last then [] else last] := by
  induction ps with
  | nil => exact absurd rfl h
  | cons p ps ih =>
    cases ps with
    | nil => rfl
    | cons q ps =>
      obtain ⟨x, rest, hrest⟩ := List.exists_cons_of_ne_nil (l := ps ++ [last]) (by simp)
      have ih := ih (by simp)
      rw [List.cons_append, hrest] at ih
      rw [List.cons_append, List.cons_append, hrest, footerPieces, ih]
      rfl

theorem footerMark_borderless : Text.Borderless footerMark := by
  have hborder : ∀ v ∈ footerMark.tails, v <+: footerMark → v = [] ∨ v = footerMark := by
    decide
  intro u v h hu hv hlead
  rcases hborder v ((List.mem_tails v _).mpr ⟨u, h.symm⟩) hlead with he | he
  · exact hv he
  · rw [he, List.self_eq_append_left] at h
    exact hu h

theorem footerPieces_of_break (hb : isLineBreak b) (u new : Text) :
    List.intercalate new (footerPieces (Text.pieces (u ++ footerMark ++ b) footerMark)) =
      Text.replace (u ++ footerMark) footerMark new := by
  have hno : ¬ footerMark <:+: b := by
    rcases isLineBreak_iff.mp hb with rfl | rfl <;> decide
  have hne : footerMark ≠ [] := by decide
  have hend := Text.pieces_around hne footerMark_borderless (Text.not_infix_nil hne) u
  rw [List.append_nil] at hend
  rw [Text.pieces_around hne footerMark_borderless hno,
    footerPieces_concat (Text.pieces_ne_nil _ _), if_pos hb, Text.replace, hend]

theorem footerPieces_of_no_break {t : Text}
    (h : ∀ u b, isLineBreak b → t ≠ u ++ footerMark ++ b) (new : Text) :
    List.intercalate new (footerPieces (t.pieces footerMark)) = t.replace footerMark new := by
  rw [Text.replace]
  congr 1
  have ht : List.intercalate footerMark (t.pieces footerMark) = t :=
    Text.intercalate_pieces (by decide) t
  cases hp : t.pieces footerMark using List.reverseRecOn with
  | nil => rfl
  | append_singleton ps last =>
    by_cases hps : ps = []
    · subst hps
      rfl
    · rw [footerPieces_concat hps, if_neg]
      intro hlast
      rw [hp, Text.intercalate_concat hps] at ht
      exact h _ last hlast ht.symm

end FooterPieces

section Ends

variable {r : Mark → Text} {ps : List Part}

/-- Up to the places that show nothing, the banner's place ends a line. -/
theorem Filled.header_last (h : Filled .footer r)
    (hchain : (ps ++ [Part.mark .header]).IsChain Beside) :
    rendered r (ps ++ [.mark .header]) = [] ∨
      '\n' ∈ (rendered r (ps ++ [.mark .header])).getLast? := by
  have hshown : r .header = [] ∨ '\n' ∈ (r .header).getLast? := by
    rcases h.spelled_or_fits .header with he | ⟨-, he | hends⟩
    · exact .inr (he ▸ rfl)
    · exact .inl he
    · exact .inr hends.2
  rw [rendered_append, rendered_mark, rendered_nil, List.append_nil]
  rcases hshown with he | hlast
  · rw [he, List.append_nil]
    induction ps using List.reverseRecOn with
    | nil => exact .inl rfl
    | append_singleton ps p ih =>
      obtain ⟨hps, -, hbeside⟩ := List.isChain_append.mp hchain
      rcases (hbeside p List.getLast?_concat _ rfl).1 rfl with rfl | rfl
      · refine .inr ?_
        rw [rendered_append]
        exact List.getLast?_concat
      · rw [rendered_append, rendered_mark, he, rendered_nil, List.append_nil, List.append_nil]
        exact ih hps
  · exact .inr (List.mem_getLast?_append_of_mem_getLast? hlast)

/-- Every other place shows something, and ends in a character of its own. -/
theorem Filled.mark_last (h : Filled .footer r) (hm : m ≠ .header) :
    ∃ c ∈ (r m).getLast?, c ∉ ['\n', '\r'] ∧ (c = ';' → m = .footer) := by
  rcases h.spelled_or_fits m with he | ⟨hlt, hfits⟩
  · rw [he]
    cases m with
    | modules => exact ⟨'\'', by decide, by decide⟩
    | header => exact absurd rfl hm
    | footer => exact ⟨';', by decide, by decide⟩
    | script => exact ⟨'\'', by decide, by decide⟩
  · cases m with
    | modules => exact ⟨']', hfits.2, by decide⟩
    | header => exact absurd rfl hm
    | footer => exact absurd hlt (by decide)
    | script => exact absurd hlt (by decide)

/-- A line break at the end of what is shown is one of the template. -/
theorem Filled.char_last (h : Filled .footer r) (hchain : ps.IsChain Beside)
    (hc : c = '\n' ∧ ps.getLast? ≠ some (.mark .header) ∨ c = '\r')
    (hr : rendered r ps = w ++ [c]) : ∃ qs, ps = qs ++ [.char c] ∧ rendered r qs = w := by
  have hlast : c ∈ (rendered r ps).getLast? := by
    rw [hr]
    exact List.getLast?_concat
  cases ps using List.reverseRecOn with
  | nil => simp at hr
  | append_singleton qs p =>
    cases p with
    | char d =>
      rw [rendered_append] at hr
      obtain ⟨hw, hd⟩ := List.append_inj' hr rfl
      cases hd
      exact ⟨qs, rfl, hw⟩
    | mark m =>
      exfalso
      by_cases hm : m = .header
      · subst hm
        rcases h.header_last hchain with he | hfeed
        · simp [he] at hlast
        · have hcn : c = '\n' := Option.mem_unique hlast hfeed
          rcases hc with ⟨-, hno⟩ | rfl
          · exact hno List.getLast?_concat
          · exact absurd hcn (by decide)
      · obtain ⟨d, hd, hbreak, -⟩ := h.mark_last hm
        rw [rendered_append, rendered_mark, rendered_nil, List.append_nil] at hlast
        have hcd : c = d :=
          Option.mem_unique hlast (List.mem_getLast?_append_of_mem_getLast? hd)
        rcases hc with ⟨rfl, -⟩ | rfl <;> simp [← hcd] at hbreak

/-- A mark of the footer at the end of what is shown is one of the template. -/
theorem Filled.footer_last (h : Filled .footer r) (hparsed : Parsed ps)
    (hchain : ps.IsChain Beside) (hr : rendered r ps = w ++ footerMark) :
    ∃ qs, ps = qs ++ [.mark .footer] := by
  have hlast : ';' ∈ (rendered r ps).getLast? := by
    rw [hr]
    exact List.mem_getLast?_append_of_mem_getLast? (by decide)
  cases ps using List.reverseRecOn with
  | nil => simp at hlast
  | append_singleton qs p =>
    cases p with
    | char d =>
      exfalso
      have hmark := (h.sealed hparsed hchain).suffix_last footerMark_borderless
        (by simp [Part.text]) ⟨w, hr.symm⟩
      exact Mark.not_infix_char .footer d hmark.isInfix
    | mark m =>
      by_cases hm : m = .header
      · subst hm
        exfalso
        rcases h.header_last hchain with he | hfeed
        · simp [he] at hlast
        · exact absurd (Option.mem_unique hlast hfeed) (by decide)
      · obtain ⟨d, hd, -, hfooter⟩ := h.mark_last hm
        rw [rendered_append, rendered_mark, rendered_nil, List.append_nil] at hlast
        have hd' := Option.mem_unique hlast (List.mem_getLast?_append_of_mem_getLast? hd)
        exact ⟨qs, by rw [hfooter hd'.symm]⟩

/-- A mark of the footer and a line break at the end of what is shown are the template's. -/
theorem Filled.footer_and_break_last (h : Filled .footer r) (hparsed : Parsed ps)
    (hsettled : Settled ps) (hb : isLineBreak b) (hr : rendered r ps = w ++ footerMark ++ b) :
    ∃ qs, ps = qs ++ .mark .footer :: b.map .char := by
  have hfooter : ∀ qs bs, ps = qs ++ bs → rendered r qs = w ++ footerMark →
      ∃ xs, ps = xs ++ .mark .footer :: bs := by
    rintro qs bs rfl hqs
    obtain ⟨xs, rfl⟩ :=
      h.footer_last hparsed.of_append_left hsettled.beside.left_of_append hqs
    exact ⟨xs, by simp⟩
  rcases isLineBreak_iff.mp hb with rfl | rfl
  · obtain ⟨qs, hps, hqs⟩ := h.char_last hsettled.beside (.inl ⟨rfl, hsettled.last⟩) hr
    exact hfooter qs _ hps hqs
  · obtain ⟨qs, rfl, hqs⟩ := h.char_last hsettled.beside (.inl ⟨rfl, hsettled.last⟩)
      (w := w ++ footerMark ++ ['\r']) (by rw [hr, List.append_assoc _ ['\r']]; rfl)
    obtain ⟨xs, rfl, hxs⟩ := h.char_last hsettled.beside.left_of_append (.inr rfl) hqs
    exact hfooter xs _ (List.append_assoc _ _ _) hxs

theorem Filled.footerPieces_rendered (h : Filled .footer r) (hparsed : Parsed ps)
    (hsettled : Settled ps) (s : Settings) :
    List.intercalate (footer s.footer) (footerPieces ((rendered r ps).pieces footerMark)) =
      rendered (refill s .footer r) (withoutBreak ps) := by
  have hsealed := h.sealed hparsed hsettled.beside
  by_cases hbreak : ∃ qs b, isLineBreak b ∧ ps = qs ++ .mark .footer :: b.map .char
  · obtain ⟨qs, b, hb, rfl⟩ := hbreak
    have hmark : r .footer = footerMark := h.later .footer (Nat.le_refl _)
    have hsplit : rendered r (qs ++ .mark .footer :: b.map .char) =
        rendered r (qs ++ [.mark .footer]) ++ b := by
      simp
    have hall : Text.Sealed Mark.footer.text (Part.text r)
        ((qs ++ [.mark .footer]) ++ b.map .char) := by
      simpa using hsealed
    have hqs := hall.of_append_left
    rw [withoutBreak_footer hb, rendered_refill (k := .footer) hqs, hsplit, rendered_append,
      rendered_mark, hmark, rendered_nil, List.append_nil]
    exact footerPieces_of_break hb _ _
  · rw [footerPieces_of_no_break, withoutBreak_eq_self, rendered_refill hsealed]
    · rfl
    · intro qs b hb he
      exact hbreak ⟨qs, b, hb, he⟩
    · intro u b hb he
      obtain ⟨qs, hqs⟩ := h.footer_and_break_last hparsed hsettled hb he
      exact hbreak ⟨qs, b, hb, hqs⟩

end Ends

/-- The expanded template, in which each place shows what fills it, with the marks that are spelled
there filled as well. -/
theorem expand_eq {s : Settings} (hsettled : Settled (parts (s.template.getD standard))) :
    expand s = rendered (shown s) (withoutBreak (parts (s.template.getD standard))) := by
  have hparsed := parsed_parts (s.template.getD standard)
  have hsource := source_parts (s.template.getD standard)
  have hmodules := Filled.spelled .modules
  have hheader : Filled .header (refill s .modules Mark.text) := hmodules.next rfl
  have hfooter : Filled .footer (refill s .header (refill s .modules Mark.text)) :=
    hheader.next rfl
  have htext : ((s.template.getD standard).replace modulesMark (Mark.fill s .modules)).replace
      headerMark (Mark.fill s .header) =
        rendered (refill s .header (refill s .modules Mark.text))
          (parts (s.template.getD standard)) := by
    rw [rendered_refill (hheader.sealed hparsed hsettled.beside),
      rendered_refill (hmodules.sealed hparsed hsettled.beside)]
    exact congrArg (fun t => (Text.replace t _ _).replace _ _) hsource.symm
  have hexpand := hfooter.footerPieces_rendered hparsed hsettled s
  rw [← htext] at hexpand
  exact hexpand

end GadgetBuild.Template
