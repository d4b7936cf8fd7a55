import GadgetBuild.Proofs.Template.LineEnds

/-!
The banner in templates with carriage returns. Its mark ends in a line feed right behind a
semicolon, so that none of its places is found when a carriage return stands between the two.
-/

namespace GadgetBuild.Template

/-- The template with the list of modules in place. -/
def listed (s : Settings) (t : Text) : Text :=
  t.replace modulesMark (Json.tabbedTexts s.modules)

section Feeds

/-- A line that ends right behind its semicolon. -/
def semicolonFeed : Text := [';', '\n']

theorem crlf_no_semicolonFeed (t : Text) :
    '\n' ∉ (Text.crlf t).head? ∧ ¬ semicolonFeed <:+: Text.crlf t := by
  induction t with
  | nil => decide
  | cons c t ih =>
    by_cases hc : c = '\n'
    · subst hc
      rw [Text.crlf_feed, Text.infix_cons_of_notMem (by decide) (by decide), List.infix_cons_iff,
        not_or]
      refine ⟨by simp, fun hlead => ?_, ih.2⟩
      exact absurd (List.cons_prefix_cons.mp hlead).1 (by decide)
    · rw [Text.crlf_cons hc, List.infix_cons_iff, not_or]
      refine ⟨by simpa using hc, fun hlead => ih.1 ?_, ih.2⟩
      obtain ⟨w, hw⟩ := (List.cons_prefix_cons.mp hlead).2
      rw [← hw]
      rfl

theorem tabbedTexts_no_semicolonFeed (ts : List Text) :
    ¬ semicolonFeed <:+: Json.tabbedTexts ts := by
  intro h
  have hchain := List.IsChain.infix (Json.unfinished_tabbedTexts ts).1 h
  exact (List.isChain_cons_cons.mp hchain).1 rfl rfl

/-- With carriage returns at its line ends no template has a place for the banner. -/
theorem headerMark_not_infix_crlf (s : Settings) (t : Text) :
    ¬ headerMark <:+: listed s (Text.crlf t) := by
  have hn : semicolonFeed ≠ [] := by decide
  obtain ⟨hfirst, hlast⟩ := Json.tabbedTexts_brackets s.modules
  have hleft : ∀ p rest, ¬ Text.Crosses semicolonFeed p (Json.tabbedTexts s.modules ++ rest) :=
    fun p rest => Text.not_crosses_of_head (c := '[') (by decide)
      (List.mem_head?_append_of_mem_head? hfirst)
  have hcount := Text.count_intercalate_of_not_crosses hn hleft
    (fun rest => Text.not_crosses_of_last (c := ']') (by decide) hlast)
    ((Text.crlf t).pieces modulesMark)
  have hpieces : ∀ p ∈ (Text.crlf t).pieces modulesMark, p.count semicolonFeed = 0 := by
    intro p hp
    rw [Text.count_eq_zero_iff hn]
    exact fun h => (crlf_no_semicolonFeed t).2 (h.trans (Text.isInfix_of_mem_pieces Mark.modules.text_ne_nil hp))
  rw [(Text.count_eq_zero_iff hn).mpr (tabbedTexts_no_semicolonFeed s.modules),
    List.sum_eq_zero (by simpa using hpieces), Nat.mul_zero, Text.count_eq_zero_iff hn] at hcount
  intro hmark
  have hend : semicolonFeed <:+: headerMark := ⟨"'header'".toList, [], by decide⟩
  exact hcount (hend.trans hmark)

end Feeds

section Expansions

variable {s : Settings} {t : Text}

theorem expand_template (s : Settings) (t : Text) :
    expand { s with template := some t } =
      List.intercalate (footer s.footer)
        (footerPieces (((listed s t).replace headerMark (header s.banner)).pieces footerMark)) :=
  rfl

theorem expand_of_no_banner (h : ¬ headerMark <:+: listed s t) :
    expand { s with template := some t } =
      List.intercalate (footer s.footer) (footerPieces ((listed s t).pieces footerMark)) := by
  have hn : headerMark ≠ [] := Mark.header.text_ne_nil
  rw [expand_template, Text.replace_of_absent hn h]

theorem listed_respelled (ht : '\r' ∉ t) :
    Text.Respelled (listed s t) (listed s (Text.crlf t)) :=
  .intercalate (carriageReturn_notMem_tabbedTexts s.modules)
    (pieces_respelled (m := .modules) (Text.respelled_crlf ht) nofun)

theorem expand_respelled (ht : '\r' ∉ t) (hfooter : ∀ text ∈ s.footer, '\r' ∉ text)
    (h : ¬ headerMark <:+: listed s t) :
    Text.Respelled (expand { s with template := some t })
      (expand { s with template := some (Text.crlf t) }) := by
  rw [expand_of_no_banner h, expand_of_no_banner (headerMark_not_infix_crlf s t)]
  have hpieces := pieces_respelled (m := .footer) (listed_respelled (s := s) ht) nofun
  exact .intercalate (carriageReturn_notMem_footer hfooter) (footerPieces_respelled hpieces)

end Expansions

section Counts

variable {s : Settings} {t : Text}

theorem map_count_footerPieces (hfeed : c ≠ '\n') (hret : c ≠ '\r') (ps : List Text) :
    (footerPieces ps).map (List.count c) = ps.map (List.count c) := by
  fun_induction footerPieces ps with
  | case1 => rfl
  | case2 only => rfl
  | case3 before last =>
    split
    · rename_i hbreak
      rcases isLineBreak_iff.mp hbreak with rfl | rfl <;> simp [hfeed.symm, hret.symm]
    · rfl
  | case4 p q r rest ih => exact congrArg (List.count c p :: ·) ih

/-- A line break that goes with a place of the footer has no other characters. -/
theorem count_footerPieces (hfeed : c ≠ '\n') (hret : c ≠ '\r') (t new : Text) :
    List.count c (List.intercalate new (footerPieces (t.pieces footerMark))) +
        t.count footerMark * List.count c footerMark =
      List.count c t + t.count footerMark * List.count c new := by
  have hmap := map_count_footerPieces hfeed hret (t.pieces footerMark)
  have hlen := congrArg List.length hmap
  rw [List.length_map, List.length_map] at hlen
  have hn : footerMark ≠ [] := Mark.footer.text_ne_nil
  have hreplace := Text.count_replace hn c t new
  rwa [Text.replace, Text.count_intercalate, ← hmap, ← hlen, ← Text.count_intercalate] at hreplace

theorem count_expand (hfeed : c ≠ '\n') (hret : c ≠ '\r') (s : Settings) (t : Text) :
    List.count c (expand { s with template := some t }) +
        (listed s t).count headerMark * List.count c headerMark +
        ((listed s t).replace headerMark (header s.banner)).count footerMark *
          List.count c footerMark =
      List.count c (listed s t) +
        (listed s t).count headerMark * List.count c (header s.banner) +
        ((listed s t).replace headerMark (header s.banner)).count footerMark *
          List.count c (footer s.footer) := by
  have hn : headerMark ≠ [] := Mark.header.text_ne_nil
  have hheader := Text.count_replace hn c (listed s t) (header s.banner)
  have hfooter := count_footerPieces hfeed hret
    ((listed s t).replace headerMark (header s.banner)) (footer s.footer)
  rw [expand_template]
  omega

theorem count_expand_crlf (hfeed : c ≠ '\n') (hret : c ≠ '\r') (ht : '\r' ∉ t) :
    List.count c (expand { s with template := some (Text.crlf t) }) +
        (listed s t).count footerMark * List.count c footerMark =
      List.count c (listed s t) + (listed s t).count footerMark * List.count c (footer s.footer) := by
  have hlisted := listed_respelled (s := s) ht
  have hcount : (listed s (Text.crlf t)).count footerMark = (listed s t).count footerMark :=
    count_respelled (m := .footer) hlisted nofun
  have hfooter := count_footerPieces hfeed hret (listed s (Text.crlf t)) (footer s.footer)
  rw [expand_of_no_banner (headerMark_not_infix_crlf s t), ← hlisted.lf_eq, Text.count_lf hfeed hret,
    hlisted.lf_eq, ← hcount]
  exact hfooter

/-- The banner takes no place of the footer away. -/
theorem count_footers_le (hbanner : header banner ≠ []) (t : Text) :
    t.count footerMark ≤ (t.replace headerMark (header banner)).count footerMark := by
  have hn : footerMark ≠ [] := Mark.footer.text_ne_nil
  have hnofeed : '\n' ∉ footerMark := mt (Mark.eq_header (k := .footer)) nofun
  obtain ⟨hslash, hfeed⟩ := (header_fits banner).resolve_left hbanner
  have hmark : ∀ p rest, ¬ Text.Crosses footerMark p (headerMark ++ rest) := by
    rintro p rest ⟨u, v, hu, hne, hv, -, hlead⟩
    have hlen := congrArg List.length hu
    have hpos := List.length_pos_iff.mpr hne
    rw [List.length_append] at hlen
    have hlong : footerMark.length ≤ headerMark.length := by decide
    obtain ⟨w, hw⟩ := List.prefix_of_prefix_length_le hlead (List.prefix_append headerMark rest)
      (by omega)
    have hover := Mark.overlap (m := .footer) (k := .header) nofun hw.symm hv ⟨u, hu.symm⟩
    exact absurd hover.1 (by decide)
  have hold := Text.count_intercalate_of_not_crosses hn hmark
    (fun rest => Text.not_crosses_of_last hnofeed rfl) (t.pieces headerMark)
  have hnew := Text.count_intercalate_of_not_crosses hn
    (fun p rest => Text.not_crosses_of_head Mark.footer.slash_notMem
      (List.mem_head?_append_of_mem_head? hslash))
    (fun rest => Text.not_crosses_of_last hnofeed hfeed) (t.pieces headerMark)
  have hnone : headerMark.count footerMark = 0 := by decide
  have hheader : headerMark ≠ [] := Mark.header.text_ne_nil
  rw [Text.intercalate_pieces hheader, hnone] at hold
  rw [Text.replace, hold, hnew]
  omega

/-- Wrapping adds the characters of the code. -/
theorem count_wrap (h : wrap s code = .ok out) (hc : isBlank c = false)
    (hmark : c ∉ scriptMark ++ [';']) :
    List.count c out = List.count c (expand s) + List.count c code := by
  obtain ⟨⟨before, behind⟩, haround⟩ := exists_aroundScript_of_wrap_ok h
  obtain ⟨-, -, -, -, blanks, hcut, -, hblanks, -⟩ := frames_of_aroundScript haround
  rw [wrap_of_ok haround] at h
  have hout := Except.ok.inj h
  have hblank : List.count c blanks = 0 :=
    List.count_eq_zero.mpr fun hmem => by simp [hblanks c hmem] at hc
  have hscript : List.count c (scriptMark ++ [';']) = 0 := List.count_eq_zero.mpr hmark
  have hfeed : List.count c ['\n'] = 0 := by
    refine List.count_eq_zero.mpr fun hmem => ?_
    rw [List.mem_singleton.mp hmem] at hc
    exact absurd hc (by decide)
  have hbehind : List.count c ('\n' :: behind) = List.count c behind := by
    rw [← List.singleton_append, List.count_append, hfeed, Nat.zero_add]
  rw [← hout, hcut, List.dropLast_concat, List.tail_cons]
  rw [List.count_append, List.count_append, List.count_append, List.count_append,
    List.count_append, List.count_append, hblank, hscript, hfeed, hbehind]
  omega

/-- A template that has a place for the banner does not come out alike with carriage returns. -/
theorem lf_ne_of_banner (ht : '\r' ∉ t) (hbanner : headerMark <:+: listed s t)
    (h : wrap { s with template := some t } code = .ok out)
    (h' : wrap { s with template := some (Text.crlf t) } code = .ok out') :
    Text.lf out ≠ Text.lf out' := by
  intro heq
  have hplaces : (listed s t).count headerMark ≠ 0 :=
    fun hzero => (Text.count_eq_zero_iff Mark.header.text_ne_nil).mp hzero hbanner
  have hcounts : ∀ c, c ≠ '\n' → c ≠ '\r' → isBlank c = false → c ∉ scriptMark ++ [';'] →
      List.count c (expand { s with template := some t }) =
        List.count c (expand { s with template := some (Text.crlf t) }) := by
    intro c hfeed hret hc hmark
    have hc' := congrArg (List.count c) heq
    rw [Text.count_lf hfeed hret, Text.count_lf hfeed hret, count_wrap h hc hmark,
      count_wrap h' hc hmark] at hc'
    omega
  have hslashes := hcounts '/' (by decide) (by decide) (by decide) (by decide)
  have hletters := hcounts 'h' (by decide) (by decide) (by decide) (by decide)
  have hslash := count_expand (c := '/') (by decide) (by decide) s t
  have hslash' := count_expand_crlf (c := '/') (s := s) (by decide) (by decide) ht
  have hletter := count_expand (c := 'h') (by decide) (by decide) s t
  have hletter' := count_expand_crlf (c := 'h') (s := s) (by decide) (by decide) ht
  have hmark : List.count '/' headerMark = 0 ∧ List.count '/' footerMark = 0 ∧
      List.count 'h' headerMark = 1 ∧ List.count 'h' footerMark = 0 := by decide
  rw [hmark.1, hmark.2.1] at hslash
  rw [hmark.2.1] at hslash'
  rw [hmark.2.2.1, hmark.2.2.2] at hletter
  rw [hmark.2.2.2] at hletter'
  by_cases hheader : header s.banner = []
  · -- The marks are gone, and with them letters that no place of the footer brings back.
    have hcount : ∀ c, List.count c (header s.banner) = 0 := fun c => by rw [hheader]; rfl
    rw [hcount] at hslash hletter
    rcases footer_fits s.footer with hnil | hfirst
    · have hcount : List.count 'h' (footer s.footer) = 0 := by rw [hnil]; rfl
      rw [hcount] at hletter hletter'
      omega
    · have hpos := List.count_pos_iff.mpr (List.mem_of_mem_head? hfirst)
      have hsame : ((listed s t).replace headerMark (header s.banner)).count footerMark =
          (listed s t).count footerMark := Nat.eq_of_mul_eq_mul_right hpos (by omega)
      rw [hsame] at hletter
      omega
  · -- The banner's comment has slashes, and no place of the footer is lost.
    have hfits := (header_fits s.banner).resolve_left hheader
    have hpos := Nat.mul_pos (Nat.pos_of_ne_zero hplaces)
      (List.count_pos_iff.mpr (List.mem_of_mem_head? hfits.1))
    have hfooters := Nat.mul_le_mul_right (List.count '/' (footer s.footer))
      (count_footers_le hheader (listed s t))
    omega

end Counts

theorem exists_of_map_eq {α β ε : Type} {f : α → β} {r r' : Except ε α} (h : r.map f = r'.map f) :
    (∃ e, r = .error e ∧ r' = .error e) ∨ ∃ a a', r = .ok a ∧ r' = .ok a' ∧ f a = f a' := by
  cases r with
  | error e =>
    cases r' with
    | error e' => exact .inl ⟨e, rfl, congrArg _ (Except.error.inj h).symm⟩
    | ok a' => cases h
  | ok a =>
    cases r' with
    | error e' => cases h
    | ok a' => exact .inr ⟨a, a', rfl, rfl, Except.ok.inj h⟩

/-- A template comes out alike with carriage returns at its line ends exactly if it has no place for
the banner, or is wrong in the same way. With carriage returns the banner is never put in. -/
theorem wrap_crlf_iff (s : Settings) {t code : Text} (ht : '\r' ∉ t)
    (hfooter : ∀ text ∈ s.footer, '\r' ∉ text) (hcode : '\r' ∉ code) :
    ((wrap { s with template := some t } code).map Text.lf =
        (wrap { s with template := some (Text.crlf t) } code).map Text.lf ↔
      ¬ headerMark <:+: t.replace modulesMark (Json.tabbedTexts s.modules) ∨
        ∃ e, wrap { s with template := some t } code = .error e ∧
          wrap { s with template := some (Text.crlf t) } code = .error e) ∧
      ∀ banner, wrap { s with template := some (Text.crlf t), banner } code =
        wrap { s with template := some (Text.crlf t) } code := by
  refine ⟨⟨fun heq => ?_, ?_⟩, fun banner => ?_⟩
  · by_cases hbanner : headerMark <:+: listed s t
    · rcases exists_of_map_eq heq with herror | ⟨out, out', h, h', hlf⟩
      · exact .inr herror
      · exact absurd hlf (lf_ne_of_banner ht hbanner h h')
    · exact .inl hbanner
  · rintro (hbanner | ⟨e, h, h'⟩)
    · exact wrap_respelled (expand_respelled ht hfooter hbanner) hcode
    · rw [h, h']
  · have hexpand : expand { s with template := some (Text.crlf t), banner } =
        expand { s with template := some (Text.crlf t) } :=
      (expand_of_no_banner (s := { s with banner }) (headerMark_not_infix_crlf _ t)).trans
        (expand_of_no_banner (headerMark_not_infix_crlf s t)).symm
    rw [wrap, wrap, hexpand]

/-- A template without a place for the banner, with line ends of its own around the script's line
and at its end. -/
theorem footerAtEnd_crlf :
    let s := gadgetSettings none (some "by us".toList) (some "end".toList)
    let t : Text := "run( 'modules', () => (\n\n\t'script';\n) );\n'footer';\n".toList
    ('\r' ∉ t ∧ (∀ text ∈ s.footer, '\r' ∉ text) ∧ '\r' ∉ "main();".toList) ∧
      (wrap { s with template := some t } "main();".toList).map Text.lf =
        (wrap { s with template := some (Text.crlf t) } "main();".toList).map Text.lf ∧
      wrap { s with template := some t } "main();".toList =
        .ok "run( [\n\t\"vue\"\n], () => (\n\nmain();\n\n) );\n// end".toList := by
  intro s t
  have ht : '\r' ∉ t := by decide
  have hfooter : ∀ text ∈ s.footer, '\r' ∉ text := by
    rintro text ⟨⟩
    decide
  have hcode : '\r' ∉ "main();".toList := by decide
  have hbanner : ¬ headerMark <:+: t.replace modulesMark (Json.tabbedTexts s.modules) := by
    decide +kernel
  refine ⟨⟨ht, hfooter, hcode⟩, ?_, by decide +kernel⟩
  exact (wrap_crlf_iff s ht hfooter hcode).1.mpr (.inl hbanner)

/-- With a carriage return behind its semicolon the banner's place is code of the script. -/
theorem banner_not_crlf :
    let s := gadgetSettings none (some "by us".toList) none
    let t : Text := "'header';\n\t'script';\n".toList
    wrap { s with template := some t } "main();".toList = .ok "// by us\n\nmain();\n\n".toList ∧
      wrap { s with template := some (Text.crlf t) } "main();".toList =
        .ok "'header';\r\n\nmain();\n\r\n".toList ∧
      (wrap { s with template := some t } "main();".toList).map Text.lf ≠
        (wrap { s with template := some (Text.crlf t) } "main();".toList).map Text.lf := by
  decide +kernel

end GadgetBuild.Template
