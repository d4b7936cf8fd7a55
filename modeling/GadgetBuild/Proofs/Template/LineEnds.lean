import GadgetBuild.Proofs.Template.Hygiene
import GadgetBuild.Proofs.Template.Opacity
import GadgetBuild.Proofs.Text.LineEnds

/-!
Templates whose lines end in carriage returns and line feeds. They come out like those with line
feeds alone as far as the places are found, and the banner's is not: its mark ends in a line feed
right behind a semicolon.
-/

namespace GadgetBuild.Template

open Text (Respelled)

section Spellings

theorem isLineBreak_respelled (h : Respelled s t) : isLineBreak s = isLineBreak t := by
  rw [Bool.eq_iff_iff, isLineBreak_iff, isLineBreak_iff]
  constructor
  · rintro (rfl | rfl)
    · cases h with
      | char _ h => cases h; exact .inl rfl
      | feed h => cases h; exact .inr rfl
    · cases h with
      | char hc _ => exact absurd rfl hc
  · rintro (rfl | rfl)
    · cases h with
      | char _ h => cases h; exact .inl rfl
    · cases h with
      | char hc _ => exact absurd rfl hc
      | feed h => cases h; exact .inl rfl

theorem footerPieces_respelled (h : List.Forall₂ Respelled ps qs) :
    List.Forall₂ Respelled (footerPieces ps) (footerPieces qs) := by
  fun_induction footerPieces ps generalizing qs with
  | case1 => cases h; exact .nil
  | case2 only =>
    cases h with
    | cons h hrest => cases hrest; exact .cons h .nil
  | case3 before last =>
    cases h with
    | cons h hrest =>
      cases hrest with
      | cons hlast hrest =>
        cases hrest
        rw [footerPieces, isLineBreak_respelled hlast]
        refine .cons h (.cons ?_ .nil)
        split
        · exact .nil
        · exact hlast
  | case4 p q r rest ih =>
    cases h with
    | cons h hrest =>
      have hfooter := ih hrest
      cases hrest with
      | cons hq hrest =>
        cases hrest with
        | cons hr hrest => exact .cons h hfooter

theorem keptBlanks?_no_feed (h : '\n' ∉ blanks) : keptBlanks? false blanks = none := by
  have hdrop : blanks.dropWhile (· ≠ '\n') = [] := List.dropWhile_eq_nil_iff.mpr (Text.all_ne h)
  rw [keptBlanks?, if_neg (by simp), hdrop]

theorem keptBlanks?_line {line : Text} (h : '\n' ∉ line) (rest : Text) :
    keptBlanks? false (line ++ '\n' :: rest) =
      if rest = [] then none else some (line ++ ['\n']) := by
  rw [keptBlanks?, if_neg (by simp), Text.dropWhile_append_cons (Text.all_ne h) (by simp),
    Text.takeWhile_append_cons (Text.all_ne h) (by simp)]
  cases rest <;> rfl

theorem keptBlanks?_respelled (h : Respelled s t) (start : Bool) :
    Option.Rel Respelled (keptBlanks? start s) (keptBlanks? start t) := by
  cases start with
  | true =>
    simp only [keptBlanks?, if_pos, h.eq_nil_iff]
    split
    · exact .none
    · exact .some .nil
  | false =>
    by_cases hfeed : '\n' ∈ s
    · obtain ⟨line, rest, rfl, hline⟩ := List.eq_append_cons_of_mem hfeed
      obtain ⟨line', rest', rfl, hline', hkept, hrest⟩ := h.exists_line hline
      simp only [keptBlanks?_line hline, keptBlanks?_line hline', hrest.eq_nil_iff]
      split
      · exact .none
      · exact .some hkept
    · rw [h.eq_of_no_feed hfeed, keptBlanks?_no_feed hfeed]
      exact .none

/-- A text that does not end in a blank ends in the same character in both spellings. -/
theorem last_respelled (h : Respelled s t) (hlast : ∀ c ∈ s.getLast?, isBlank c = false) :
    ∀ c ∈ t.getLast?, isBlank c = false := by
  cases s using List.reverseRecOn with
  | nil =>
    obtain rfl := h.eq_nil_iff.mpr rfl
    simp
  | append_singleton s c =>
    have hfeed : '\n' ∉ [c] := by
      intro hmem
      have hblank := hlast c List.getLast?_concat
      rw [← List.mem_singleton.mp hmem] at hblank
      exact absurd hblank (by decide)
    obtain ⟨u, u', rfl, -, hc⟩ := h.exists_append
    obtain rfl := hc.eq_of_no_feed hfeed
    rwa [List.getLast?_concat] at hlast ⊢

/-- The blanks in front of the script are the same line, whatever its end. -/
theorem beforeScriptLine?_respelled (h : Respelled s t) :
    Option.Rel Respelled (beforeScriptLine? s) (beforeScriptLine? t) := by
  obtain ⟨blanks, hs, hblanks⟩ := exists_trimEnd_append s
  have hlast := trimEnd_last s
  generalize s.trimEnd = kept at *
  subst hs
  obtain ⟨kept', blanks', rfl, hkept, hrest⟩ := h.exists_append
  have hblanks' : ∀ c ∈ blanks', isBlank c = true := by
    intro c hc
    rcases hrest.mem hc with hc | rfl
    · exact hblanks c hc
    · rfl
  have hempty : kept'.isEmpty = kept.isEmpty := by
    rw [Bool.eq_iff_iff, List.isEmpty_iff, List.isEmpty_iff, hkept.eq_nil_iff]
  rw [beforeScriptLine?_append hlast hblanks,
    beforeScriptLine?_append (last_respelled hkept hlast) hblanks', hempty]
  have hline := keptBlanks?_respelled hrest kept.isEmpty
  generalize keptBlanks? kept.isEmpty blanks = line at *
  generalize keptBlanks? kept.isEmpty blanks' = line' at *
  cases hline with
  | none => exact .none
  | some hline => exact .some (hkept.append hline)

/-- Both spellings have the same places, but for the banner's. -/
theorem pieces_respelled {m : Mark} (h : Respelled s t) (hm : m ≠ .header) :
    List.Forall₂ Respelled (s.pieces m.text) (t.pieces m.text) :=
  h.pieces m.text_ne_nil (mt Mark.eq_header hm) m.carriageReturn_notMem

theorem count_respelled {m : Mark} (h : Respelled s t) (hm : m ≠ .header) :
    t.count m.text = s.count m.text := by
  rw [Text.count, Text.count, (pieces_respelled h hm).length_eq]

/-- Both spellings of a template are right or wrong in the same way. -/
theorem aroundScript_respelled (h : Respelled s t) :
    (∃ e, aroundScript s = .error e ∧ aroundScript t = .error e) ∨
      ∃ p q, aroundScript s = .ok p ∧ aroundScript t = .ok q ∧
        Respelled p.1 q.1 ∧ Respelled p.2 q.2 := by
  have hpieces : List.Forall₂ Respelled (s.pieces scriptMark) (t.pieces scriptMark) :=
    pieces_respelled (m := .script) h nofun
  have hcount : t.count scriptMark = s.count scriptMark := count_respelled (m := .script) h nofun
  by_cases hone : s.count scriptMark = 1
  · obtain ⟨before, behind, hs⟩ : ∃ before behind, s.pieces scriptMark = [before, behind] :=
      List.length_eq_two.mp (by rw [Text.length_pieces, hone])
    rw [hs] at hpieces
    obtain ⟨before', behind', ht, hbefore, hbehind⟩ : ∃ before' behind',
        t.pieces scriptMark = [before', behind'] ∧ Respelled before before' ∧
          Respelled behind behind' := by
      generalize t.pieces scriptMark = ps at hpieces
      cases hpieces with
      | cons hb hrest =>
        cases hrest with
        | cons hb' hrest =>
          cases hrest
          exact ⟨_, _, rfl, hb, hb'⟩
    by_cases hsemi : ';' ∈ behind.head?
    · obtain ⟨behind, rfl⟩ := List.head?_eq_some_iff.mp hsemi
      cases hbehind with
      | char _ hbehind =>
        have hline := beforeScriptLine?_respelled hbefore
        rw [aroundScript_found hs, aroundScript_found ht]
        generalize beforeScriptLine? before = line at *
        generalize beforeScriptLine? before' = line' at *
        cases hline with
        | none => exact .inl ⟨_, rfl, rfl⟩
        | some hline => exact .inr ⟨_, _, rfl, rfl, hline, hbehind⟩
    · have hsemi' : ';' ∉ behind'.head? := by
        cases hbehind with
        | nil => exact hsemi
        | char _ _ => exact hsemi
        | feed _ => simp
      exact .inl ⟨_, aroundScript_unended hs hsemi, aroundScript_unended ht hsemi'⟩
  · exact .inl ⟨_, aroundScript_of_count hone, hcount ▸ aroundScript_of_count (hcount ▸ hone)⟩

theorem wrap_respelled (h : Respelled (expand s) (expand s')) (hcode : '\r' ∉ code) :
    (wrap s code).map Text.lf = (wrap s' code).map Text.lf := by
  rcases aroundScript_respelled h with ⟨e, hs, hs'⟩ | ⟨p, q, hs, hs', hbefore, hbehind⟩
  · rw [wrap_of_error hs, wrap_of_error hs']
  · have hfeed : Respelled ['\n'] ['\n'] := .refl (by decide)
    have hout := ((hbefore.append hfeed).append (.refl hcode)).append (hfeed.append hbehind)
    rw [wrap_of_ok hs, wrap_of_ok hs', Except.map, Except.map]
    exact congrArg _ ((Text.lf_of_notMem hout.notMem_left).trans hout.lf_eq.symm)

end Spellings

section Fillings

theorem carriageReturn_notMem_quote (t : Text) : '\r' ∉ Json.quote t :=
  (Json.controlFree_quote t).notMem (by decide)

theorem carriageReturn_notMem_tabbedTexts (ts : List Text) : '\r' ∉ Json.tabbedTexts ts := by
  have hitems : ∀ ts : List Text, '\r' ∉ Json.tabbedItems 1 (ts.map .text) := by
    intro ts
    induction ts with
    | nil => simp [Json.tabbedItems]
    | cons t ts ih =>
      have hindent : '\r' ∉ Json.indent 1 := by decide
      simp [Json.tabbedItems, Json.tabbed, hindent, carriageReturn_notMem_quote, ih]
  cases ts with
  | nil => decide
  | cons t ts =>
    have hindent : '\r' ∉ Json.indent 0 ∧ '\r' ∉ Json.indent 1 := by decide
    simp [Json.tabbedTexts, Json.tabbed, hindent, carriageReturn_notMem_quote, hitems]

theorem carriageReturn_notMem_footer {text : Option Text} (h : ∀ t ∈ text, '\r' ∉ t) :
    '\r' ∉ footer text := by
  cases text with
  | none => simp [footer, Text.trimStart]
  | some t =>
    rw [footer_some]
    intro hmem
    rcases Text.exists_of_mem_intercalate hmem with hc | ⟨comment, hcomment, hc⟩
    · exact absurd hc (by decide)
    obtain ⟨line, hline, rfl⟩ := List.mem_map.mp hcomment
    obtain ⟨w, hw, hlead⟩ := commentLine_cons line
    rw [hw] at hc
    have hmem : '\r' ∈ line := by
      rcases List.mem_cons.mp hc with hc | hc
      · exact absurd hc (by decide)
      · simpa using hlead.subset hc
    exact h t rfl ((Text.isInfix_of_mem_pieces (by simp) hline).subset hmem)

end Fillings

end GadgetBuild.Template
