import Mathlib.Algebra.Order.BigOperators.Group.List
import Mathlib.Algebra.Order.Group.Nat
import Mathlib.Tactic.Tauto
import GadgetBuild.Proofs.Template.Quotes

/-!
Whether wrapping depends on the template's own places alone. The places are filled one after the
other in one text, so that a place that is spelled in the filling of an earlier one is filled or
counted like the template's own.
-/

namespace GadgetBuild.Template

/-- The bundle in the template by the template's own places: the line of the script is found in the
template itself, and the places around it are filled once. -/
def wrapInPlaces (s : Settings) (code : Text) : Except Failure Text := do
  let (before, behind) ← aroundScript (s.template.getD standard)
  return Sources.join [rendered (Mark.fill s) (parts before), code,
    rendered (Mark.fill s) (withoutBreak (parts behind))]

/-- No filling of a place spells a place that is filled after it. -/
def Clean (s : Settings) (ps : List Part) : Prop :=
  ∀ m k : Mark, m.stage < k.stage → .mark m ∈ ps → ¬ k.text <:+: m.fill s

section Wrapping

variable {s : Settings} {xs bs : List Part} {blanks : Text}

theorem filled_shown (s : Settings) : Filled .script (shown s) := by
  have hheader : Filled .header (refill s .modules Mark.text) := (Filled.spelled .modules).next rfl
  exact (hheader.next rfl).next rfl

theorem script_not_infix_source {p : Part} (hp : p ≠ .mark .script) :
    ¬ scriptMark <:+: p.text Mark.text := by
  cases p with
  | char c => exact Mark.not_infix_char .script c
  | mark m => exact fun h => hp (congrArg Part.mark (Mark.eq_of_isInfix (m := .script) h).symm)

/-- The marks of the script that are shown are the template's. -/
theorem Filled.count_script {r : Mark → Text} {ps : List Part} (h : Filled .script r)
    (hparsed : Parsed ps) (hchain : ps.IsChain Beside)
    (hno : ∀ p ∈ ps, p ≠ .mark .script → ¬ scriptMark <:+: p.text r) :
    (rendered r ps).count scriptMark = ps.count (.mark .script) := by
  have hn : scriptMark ≠ [] := by decide
  rw [rendered, (h.sealed hparsed hchain).count_flatMap hn]
  clear hparsed hchain
  induction ps with
  | nil => rfl
  | cons p ps ih =>
    rw [List.map_cons, List.sum_cons, ih fun q hq => hno q (List.mem_cons_of_mem _ hq),
      List.count_cons, Nat.add_comm]
    congr 1
    by_cases hp : p = .mark .script
    · subst hp
      have hmark : (Part.mark .script).text r = scriptMark := h.later .script (Nat.le_refl _)
      rw [hmark, if_pos (by simp)]
      exact Text.count_self hn
    · rw [if_neg (by simpa using hp)]
      exact (Text.count_eq_zero_iff hn).mpr (hno p List.mem_cons_self hp)

/-- The bundle in the template by its parts. -/
theorem OwnLine.wrapInPlaces_eq (h : OwnLine xs blanks bs)
    (hsource : s.template.getD standard = source (aroundBlanks xs blanks bs))
    (hone : .mark .script ∉ xs ++ bs) (code : Text) :
    wrapInPlaces s code = (aroundPlace xs blanks bs).map fun p =>
      Sources.join [rendered (Mark.fill s) p.1, code,
        rendered (Mark.fill s) (withoutBreak p.2)] := by
  have haround := h.aroundScript_rendered (.spelled .script) fun p hp =>
    script_not_infix_source fun he => hone (he ▸ hp)
  rw [wrapInPlaces, hsource, source, haround]
  cases hplace : aroundPlace xs blanks bs with
  | error e => rfl
  | ok p =>
    obtain ⟨before, behind⟩ := p
    obtain ⟨rfl, kept, hkept, rfl⟩ := aroundPlace_ok hplace
    have hbefore : Parsed (xs ++ kept.map .char) := by
      obtain ⟨rest, rfl, -⟩ := exists_of_keptBlanks? hkept
      have hparsed := h.parsed.of_append_left
      rw [List.map_append, ← List.append_assoc] at hparsed
      exact hparsed.of_append_left
    have hbehind : Parsed behind := h.parsed.of_append_right.2
    have hparts := hbefore.parts_source
    have hparts' := hbehind.parts_source
    rw [source] at hparts hparts'
    simp only [Except.map, bind, Except.bind, pure, Except.pure, hparts, hparts']

theorem OwnLine.wrap_eq (h : OwnLine xs blanks bs)
    (hexpand : expand s = rendered (shown s) (aroundBlanks xs blanks (withoutBreak bs)))
    (hno : ∀ p ∈ xs ++ withoutBreak bs, ¬ scriptMark <:+: p.text (shown s)) (code : Text) :
    wrap s code = (aroundPlace xs blanks bs).map fun p =>
      Sources.join [rendered (shown s) p.1, code, rendered (shown s) (withoutBreak p.2)] := by
  have haround := h.cut.aroundScript_rendered (filled_shown s) hno
  rw [← hexpand, aroundPlace_withoutBreak] at haround
  rw [wrap, haround]
  cases aroundPlace xs blanks bs <;> rfl

/-- In a clean template every place shows what fills it. -/
theorem Clean.shown_eq {ps : List Part} (h : Clean s ps) (hm : .mark m ∈ ps) :
    shown s m = m.fill s := by
  have hearly : m = .modules ∨ m = .header → shown s m = m.fill s := fun he => by
    have hfooter : ¬ footerMark <:+: m.fill s :=
      h m .footer (by rcases he with rfl | rfl <;> decide) hm
    rw [shown_early he, Text.replace_of_absent (by decide) hfooter]
  cases m with
  | modules => exact hearly (.inl rfl)
  | header => exact hearly (.inr rfl)
  | footer => exact shown_late (.inl rfl)
  | script => exact shown_late (.inr rfl)

/-- In a clean template the script's place is spelled nowhere else. -/
theorem Clean.script_absent {ps : List Part} (h : Clean s ps) (hp : p ∈ ps)
    (hne : p ≠ .mark .script) : ¬ scriptMark <:+: p.text (shown s) := by
  cases p with
  | char c => exact Mark.not_infix_char .script c
  | mark m =>
    have hearlier : m.stage < Mark.script.stage := by
      revert hne
      cases m <;> decide
    rw [Part.text, h.shown_eq hp]
    exact h m .script hearlier hp

theorem withoutBreak_aroundBlanks (xs : List Part) (blanks : Text) (bs : List Part) :
    withoutBreak (aroundBlanks xs blanks bs) = aroundBlanks xs blanks (withoutBreak bs) :=
  withoutBreak_script _ _

theorem script_notMem (h : (aroundBlanks xs blanks bs).count (.mark .script) = 1) :
    .mark .script ∉ xs ++ bs := by
  intro hmem
  have hpos := List.count_pos_iff.mpr hmem
  rw [aroundBlanks, List.count_append, List.count_append, List.count_cons_self] at h
  rw [List.count_append] at hpos
  omega

/-- The places around the line of the script are all there are but the script's. -/
theorem mark_mem_around (h : aroundPlace xs blanks bs = .ok (before, behind)) :
    .mark m ∈ before ++ withoutBreak behind ↔ .mark m ∈ xs ++ bs := by
  obtain ⟨rfl, kept, -, rfl⟩ := aroundPlace_ok h
  simp [mark_mem_withoutBreak]

theorem mem_aroundBlanks (h : p ∈ xs ++ bs) (blanks : Text) : p ∈ aroundBlanks xs blanks bs := by
  simp only [aroundBlanks, List.mem_append, List.mem_cons] at h ⊢
  tauto

theorem Clean.wrap_eq_of_once (h : Clean s (aroundBlanks xs blanks bs))
    (hline : OwnLine xs blanks bs)
    (hsource : s.template.getD standard = source (aroundBlanks xs blanks bs))
    (hexpand : expand s = rendered (shown s) (aroundBlanks xs blanks (withoutBreak bs)))
    (hscript : .mark .script ∉ xs ++ bs) (code : Text) : wrap s code = wrapInPlaces s code := by
  have hno : ∀ p ∈ xs ++ withoutBreak bs, ¬ scriptMark <:+: p.text (shown s) := by
    intro p hp
    have hmem : p ∈ xs ++ bs :=
      ((List.prefix_append_right_inj xs).mpr (withoutBreak_isPrefix bs)).subset hp
    exact h.script_absent (mem_aroundBlanks hmem blanks) fun he => hscript (he ▸ hmem)
  rw [hline.wrapInPlaces_eq hsource hscript, hline.wrap_eq hexpand hno]
  cases hplace : aroundPlace xs blanks bs with
  | error e => rfl
  | ok p =>
    have hshown : ∀ m, .mark m ∈ p.1 ++ withoutBreak p.2 → shown s m = m.fill s :=
      fun m hm => h.shown_eq (mem_aroundBlanks ((mark_mem_around hplace).mp hm) blanks)
    have hbefore := rendered_congr fun m hm => hshown m (List.mem_append_left _ hm)
    have hbehind := rendered_congr fun m hm => hshown m (List.mem_append_right _ hm)
    simp only [Except.map, hbefore, hbehind]

theorem wrap_eq_of_clean (hsettled : Settled (parts (s.template.getD standard)))
    (h : Clean s (parts (s.template.getD standard))) (code : Text) :
    wrap s code = wrapInPlaces s code := by
  have hparsed := parsed_parts (s.template.getD standard)
  have hsource := (source_parts (s.template.getD standard)).symm
  have hexpand := expand_eq hsettled
  generalize parts (s.template.getD standard) = ps at *
  by_cases hone : ps.count (.mark .script) = 1
  · have hmem : .mark .script ∈ ps := List.count_pos_iff.mp (by omega)
    obtain ⟨xs, blanks, bs, rfl, hline⟩ := hsettled.exists_ownLine hparsed hmem
    rw [withoutBreak_aroundBlanks] at hexpand
    exact h.wrap_eq_of_once hline hsource hexpand (script_notMem hone) code
  · have hlead := withoutBreak_isPrefix ps
    have hbeside := List.IsChain.prefix hsettled.beside hlead
    have hown : Text.count (s.template.getD standard) scriptMark = ps.count (.mark .script) := by
      rw [hsource]
      exact (Filled.spelled .script).count_script hparsed hsettled.beside
        fun p _ => script_not_infix_source
    have hshown : (expand s).count scriptMark = ps.count (.mark .script) := by
      rw [hexpand, ← count_mark_withoutBreak]
      exact (filled_shown s).count_script (hparsed.of_isPrefix hlead)
        hbeside fun p hp => h.script_absent (hlead.subset hp)
    rw [wrap, wrapInPlaces, aroundScript_of_count (hshown ▸ hone),
      aroundScript_of_count (hown ▸ hone), hown, hshown]
    rfl

/-- How often the footer's place is spelled in a filling where it is filled too. -/
def strayFooters (s : Settings) : Part → Nat
  | .char _ => 0
  | .mark m => if m.stage < Mark.footer.stage then (m.fill s).count footerMark else 0

theorem count_shown_part (s : Settings) (c : Char) (p : Part) :
    List.count c (p.text (shown s)) + strayFooters s p * List.count c footerMark =
      List.count c (p.text (Mark.fill s)) + strayFooters s p * List.count c (footer s.footer) := by
  cases p with
  | char d => simp [Part.text, strayFooters]
  | mark m =>
    rw [Part.text, Part.text, strayFooters]
    by_cases hm : m = .modules ∨ m = .header
    · rw [shown_early hm, if_pos (by rcases hm with rfl | rfl <;> decide)]
      exact Text.count_replace (by decide) c _ _
    · have hlate : m = .footer ∨ m = .script := by
        revert hm
        cases m <;> decide
      rw [shown_late hlate, if_neg (by rcases hlate with rfl | rfl <;> decide), Nat.zero_mul,
        Nat.zero_mul]

/-- Each stray place of the footer changes what is shown alike. -/
theorem count_shown (s : Settings) (c : Char) (ps : List Part) :
    List.count c (rendered (shown s) ps) + (ps.map (strayFooters s)).sum * List.count c footerMark =
      List.count c (rendered (Mark.fill s) ps) +
        (ps.map (strayFooters s)).sum * List.count c (footer s.footer) := by
  induction ps with
  | nil => simp
  | cons p ps ih =>
    have hp := count_shown_part s c p
    rw [rendered, rendered, List.flatMap_cons, List.flatMap_cons, List.count_append,
      List.count_append, List.map_cons, List.sum_cons, Nat.add_mul, Nat.add_mul]
    rw [rendered, rendered] at ih
    omega

/-- Footers are told from their marks by the characters in them. -/
theorem exists_count_ne (s : Settings) :
    ∃ c, List.count c footerMark ≠ List.count c (footer s.footer) := by
  rcases footer_fits s.footer with he | hslash
  · refine ⟨'f', ?_⟩
    rw [he]
    decide
  · refine ⟨'/', fun h => ?_⟩
    have hpos := List.count_pos_iff.mpr (List.mem_of_mem_head? hslash)
    rw [← h] at hpos
    exact absurd hpos (by decide)

/-- Where one mark of the script is shown, it is the template's. -/
theorem OwnLine.script_absent {r : Mark → Text} (h : OwnLine xs blanks bs)
    (hr : Filled .script r)
    (hone : (rendered r (aroundBlanks xs blanks bs)).count scriptMark = 1) :
    ∀ p ∈ xs ++ bs, ¬ scriptMark <:+: p.text r := by
  have hn : scriptMark ≠ [] := by decide
  have hcount : (rendered r (aroundBlanks xs blanks bs)).count scriptMark =
      ((aroundBlanks xs blanks bs).map fun p => Text.count (p.text r) scriptMark).sum :=
    (hr.sealed h.parsed h.beside).count_flatMap hn
  have hself : Text.count ((Part.mark .script).text r) scriptMark = 1 := by
    have hmark : (Part.mark .script).text r = scriptMark := hr.later .script (Nat.le_refl _)
    rw [hmark, Text.count_self hn]
  rw [hone, aroundBlanks, List.map_append, List.map_append, List.map_cons, List.sum_append,
    List.sum_append, List.sum_cons, hself] at hcount
  intro p hp hspelled
  have hpos : Text.count (p.text r) scriptMark ≠ 0 :=
    fun hzero => (Text.count_eq_zero_iff hn).mp hzero hspelled
  have hle := List.le_sum_of_mem
    (List.mem_map_of_mem (f := fun p => Text.count (Part.text r p) scriptMark) hp)
  rw [List.map_append, List.sum_append] at hle
  omega

theorem count_join (c : Char) (before code behind : Text) :
    List.count c (Sources.join [before, code, behind]) =
      List.count c before + List.count c behind + List.count c (['\n'] ++ code ++ ['\n']) := by
  simp only [Sources.join, List.intercalate_cons_cons, List.intercalate_singleton,
    List.count_append]
  omega

/-- Wrapping that comes out alike fills no stray place of the footer. -/
theorem strayFooters_eq_zero {before behind : List Part}
    (h : Sources.join [rendered (shown s) before, code, rendered (shown s) behind] =
      Sources.join [rendered (Mark.fill s) before, code, rendered (Mark.fill s) behind]) :
    ∀ p ∈ before ++ behind, strayFooters s p = 0 := by
  obtain ⟨c, hc⟩ := exists_count_ne s
  have hjoin := congrArg (List.count c) h
  have hshown := count_shown s c (before ++ behind)
  rw [rendered_append, rendered_append, List.count_append, List.count_append] at hshown
  rw [count_join, count_join] at hjoin
  have hmul : ((before ++ behind).map (strayFooters s)).sum * List.count c footerMark =
      ((before ++ behind).map (strayFooters s)).sum * List.count c (footer s.footer) := by
    omega
  have hsum : ((before ++ behind).map (strayFooters s)).sum = 0 := by
    by_contra hne
    exact hc (Nat.eq_of_mul_eq_mul_left (Nat.pos_of_ne_zero hne) hmul)
  exact fun p hp => List.sum_eq_zero_iff.mp hsum _ (List.mem_map_of_mem hp)

theorem clean_of_not_stray {ps : List Part}
    (hstray : ∀ m, m ≠ .script → .mark m ∈ ps → strayFooters s (.mark m) = 0)
    (hno : ∀ m, m ≠ .script → .mark m ∈ ps → ¬ scriptMark <:+: shown s m) : Clean s ps := by
  have hn : footerMark ≠ [] := by decide
  intro m k hlt hm
  have hscript : m ≠ .script := by
    rintro rfl
    revert hlt
    cases k <;> decide
  by_cases hearly : m = .modules ∨ m = .header
  · have hfooter : ¬ footerMark <:+: m.fill s := by
      have hzero := hstray m hscript hm
      rw [strayFooters, if_pos (by rcases hearly with rfl | rfl <;> decide)] at hzero
      exact (Text.count_eq_zero_iff hn).mp hzero
    have hshown := shown_early (s := s) hearly
    rw [Text.replace_of_absent hn hfooter] at hshown
    cases k with
    | modules => exact absurd hlt (Nat.not_lt_zero _)
    | header =>
      have hmodules : m = .modules := by
        revert hlt
        cases m <;> decide
      exact hmodules ▸ headerMark_not_infix_modules s
    | footer => exact hfooter
    | script => exact hshown ▸ hno m hscript hm
  · have hlate : m = .footer ∧ k = .script := by
      revert hearly hlt
      cases m <;> cases k <;> decide
    obtain ⟨rfl, rfl⟩ := hlate
    exact shown_late (s := s) (.inl rfl) ▸ hno .footer hscript hm

theorem exists_aroundScript_of_wrap_ok (h : wrap s code = .ok result) :
    ∃ p, aroundScript (expand s) = .ok p := by
  cases haround : aroundScript (expand s) with
  | error e => simp [wrap, haround, bind, Except.bind] at h
  | ok p => exact ⟨p, rfl⟩

/-- Wrapping that comes out has the line of the script from the template, with the places around it
as they are shown. -/
theorem exists_around_of_wrap_ok (hsettled : Settled (parts (s.template.getD standard)))
    (hwrap : wrap s code = .ok result) :
    ∃ xs blanks bs before behind,
      parts (s.template.getD standard) = aroundBlanks xs blanks bs ∧
      (∀ p ∈ xs ++ withoutBreak bs, ¬ scriptMark <:+: p.text (shown s)) ∧
      aroundPlace xs blanks bs = .ok (before, behind) ∧
      result = Sources.join [rendered (shown s) before, code,
        rendered (shown s) (withoutBreak behind)] ∧
      wrapInPlaces s code = .ok (Sources.join [rendered (Mark.fill s) before, code,
        rendered (Mark.fill s) (withoutBreak behind)]) := by
  have hparsed := parsed_parts (s.template.getD standard)
  have hsource := (source_parts (s.template.getD standard)).symm
  have hexpand := expand_eq hsettled
  obtain ⟨p, haround⟩ := exists_aroundScript_of_wrap_ok hwrap
  have hcount : (expand s).count scriptMark = 1 := by
    by_contra hne
    rw [aroundScript_of_count hne] at haround
    cases haround
  generalize parts (s.template.getD standard) = ps at *
  have hmem : .mark .script ∈ ps := by
    by_contra hno
    have hlead := withoutBreak_isPrefix ps
    have hbeside := List.IsChain.prefix hsettled.beside hlead
    have hsealed := (filled_shown s).sealed (hparsed.of_isPrefix hlead) hbeside
    rw [hexpand] at haround
    exact aroundScript_of_notMem hsealed (mt mark_mem_withoutBreak.mp hno) p haround
  obtain ⟨xs, blanks, bs, rfl, hline⟩ := hsettled.exists_ownLine hparsed hmem
  rw [withoutBreak_aroundBlanks] at hexpand
  have hno := hline.cut.script_absent (filled_shown s) (hexpand ▸ hcount)
  have hscript : .mark .script ∉ xs ++ bs := by
    intro h
    have hcut : .mark .script ∈ xs ++ withoutBreak bs := by
      simpa [mark_mem_withoutBreak] using h
    refine hno _ hcut ?_
    have hmark : shown s .script = scriptMark := shown_late (.inr rfl)
    rw [Part.text, hmark]
  have hplaces := hline.wrapInPlaces_eq hsource hscript code
  rw [hline.wrap_eq hexpand hno] at hwrap
  cases hplace : aroundPlace xs blanks bs with
  | error e => simp [hplace, Except.map] at hwrap
  | ok p =>
    rw [hplace] at hwrap hplaces
    exact ⟨xs, blanks, bs, p.1, p.2, rfl, hno, hplace, (Except.ok.inj hwrap).symm, hplaces⟩

theorem clean_of_wrap_eq (hsettled : Settled (parts (s.template.getD standard)))
    (hplaces : wrapInPlaces s code = .ok result) (hwrap : wrap s code = .ok result) :
    Clean s (parts (s.template.getD standard)) := by
  obtain ⟨xs, blanks, bs, before, behind, hparts, hno, hplace, hresult, hfilled⟩ :=
    exists_around_of_wrap_ok hsettled hwrap
  have hjoin := hresult.symm.trans (Except.ok.inj (hplaces.symm.trans hfilled))
  have hown : ∀ m, m ≠ .script → .mark m ∈ aroundBlanks xs blanks bs → .mark m ∈ xs ++ bs := by
    intro m hm hmem
    simpa [aroundBlanks, hm] using hmem
  rw [hparts]
  refine clean_of_not_stray (fun m hm hmem => ?_) fun m hm hmem => ?_
  · exact strayFooters_eq_zero hjoin _ ((mark_mem_around hplace).mpr (hown m hm hmem))
  · have hcut : .mark m ∈ xs ++ withoutBreak bs := by
      rw [List.mem_append, mark_mem_withoutBreak, ← List.mem_append]
      exact hown m hm hmem
    exact hno _ hcut

end Wrapping

/-- Wrapping a bundle depends on the places of a settled template alone exactly if no text that
fills one spells a place that is filled later. A template that is wrong in itself fails whatever the
texts are. -/
theorem wrap_inPlaces_iff (s : Settings) (hsettled : Settled (parts (s.template.getD standard))) :
    (Clean s (parts (s.template.getD standard)) → ∀ code, wrap s code = wrapInPlaces s code) ∧
      (∀ code result, wrapInPlaces s code = .ok result →
        (wrap s code = .ok result ↔ Clean s (parts (s.template.getD standard)))) ∧
      ∀ code, (∃ result, wrap s code = .ok result) →
        ∃ result, wrapInPlaces s code = .ok result := by
  refine ⟨fun h code => wrap_eq_of_clean hsettled h code, fun code result hplaces => ?_, ?_⟩
  · constructor
    · intro hwrap
      exact clean_of_wrap_eq hsettled hplaces hwrap
    · intro h
      rw [wrap_eq_of_clean hsettled h, hplaces]
  · rintro code ⟨result, hwrap⟩
    obtain ⟨xs, blanks, bs, before, behind, -, -, -, -, hfilled⟩ :=
      exists_around_of_wrap_ok hsettled hwrap
    exact ⟨_, hfilled⟩

def gadgetSettings (template banner footer : Option Text) : Settings :=
  Options.settings
    { name := "gadget".toList, entry := "src/main.ts".toList, template, banner, footer,
      modules := some ["vue".toList], ignoreBuildOptions := none, debugCookieAge := none,
      esmChunks := none, esmUnhoistChunks := none, baseUrl := none }

theorem settled_standard : Settled (parts standard) :=
  ⟨by decide +kernel, by decide +kernel, by decide +kernel⟩

/-- A banner may spell a place that is filled before its own. -/
theorem modulesInBanner_inPlaces :
    Settled (parts standard) ∧
      Clean (gadgetSettings none (some "uses 'modules'".toList) (some "end".toList))
        (parts standard) ∧
      wrap (gadgetSettings none (some "uses 'modules'".toList) (some "end".toList))
          "main();".toList =
        .ok ("// uses 'modules'\n// <nowiki>\nmw.loader.using( [\n\t\"vue\"\n], ".toList ++
          "function ( require ) \x7b\n\nmain();\n\n\x7d );\n// </nowiki>\n// end".toList) := by
  have hclean : Clean (gadgetSettings none (some "uses 'modules'".toList) (some "end".toList))
      (parts standard) := by
    intro m k hlt hm
    cases m <;> cases k <;> first | exact absurd hlt (by decide) | decide +kernel
  have hwrap := (wrap_inPlaces_iff
    (gadgetSettings none (some "uses 'modules'".toList) (some "end".toList))
    settled_standard).1 hclean "main();".toList
  refine ⟨settled_standard, hclean, hwrap.trans ?_⟩
  decide +kernel

/-- A banner that spells the script's place breaks the build, and so does a template in which the
banner's place stands between the script's line and other code. -/
theorem scriptInBanner_not_inPlaces :
    wrap (gadgetSettings none (some "see 'script'".toList) none) "main();".toList =
        .error (.placeholderCount 2) ∧
      wrapInPlaces (gadgetSettings none (some "see 'script'".toList) none) "main();".toList =
        .ok ("// see 'script'\n// <nowiki>\nmw.loader.using( [\n\t\"vue\"\n], ".toList ++
          "function ( require ) \x7b\n\nmain();\n\n\x7d );\n// </nowiki>\n".toList) ∧
      wrap (gadgetSettings (some "x'header';\n\t'script';".toList) none none) "main();".toList =
        .error .scriptNotOnOwnLine ∧
      wrapInPlaces (gadgetSettings (some "x'header';\n\t'script';".toList) none none)
        "main();".toList = .ok "x\nmain();\n".toList := by
  decide +kernel

end GadgetBuild.Template
