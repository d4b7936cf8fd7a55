import GadgetBuild.Proofs.Template.ScriptLine

/-!
Where quotes stand in what fills a place. In front of each, on its line, there is more than blanks,
so that none of them can begin the line of a script.
-/

namespace GadgetBuild.Template

/-- Whether there is more than blanks on a line, once a character is added. -/
def begunBy (start : Bool) (c : Char) : Bool :=
  if c = '\n' then false else start || !isBlank c

/-- Whether there is more than blanks on the last line of a text. -/
def begun (start : Bool) (t : Text) : Bool :=
  t.foldl begunBy start

/-- Before every quote there is more than blanks on its line. -/
def Guarded : Bool → Text → Prop
  | _, [] => True
  | start, c :: t => (c = '\'' → start = true) ∧ Guarded (begunBy start c) t

theorem guarded_append {start : Bool} {t u : Text} :
    Guarded start (t ++ u) ↔ Guarded start t ∧ Guarded (begun start t) u := by
  induction t generalizing start with
  | nil => simp [Guarded, begun]
  | cons c t ih =>
    rw [List.cons_append, Guarded, Guarded, ih, begun, begun, List.foldl_cons, and_assoc]

theorem begun_append (start : Bool) (t u : Text) :
    begun start (t ++ u) = begun (begun start t) u :=
  List.foldl_append

theorem guarded_of_no_quote {t : Text} (h : '\'' ∉ t) (start : Bool) : Guarded start t := by
  induction t generalizing start with
  | nil => trivial
  | cons c t ih =>
    refine ⟨fun hc => ?_, ih (fun ht => h (List.mem_cons_of_mem _ ht)) _⟩
    exact absurd (hc ▸ List.mem_cons_self) h

theorem guarded_line {t : Text} (h : '\n' ∉ t) : Guarded true t ∧ begun true t = true := by
  induction t with
  | nil => exact ⟨trivial, rfl⟩
  | cons c t ih =>
    have hfeed : c ≠ '\n' := fun he => h (he ▸ List.mem_cons_self)
    have hc : begunBy true c = true := by simp [begunBy, hfeed]
    obtain ⟨hline, hbegun⟩ := ih fun ht => h (List.mem_cons_of_mem _ ht)
    rw [Guarded, begun, List.foldl_cons, hc]
    exact ⟨⟨fun _ => rfl, hline⟩, hbegun⟩

/-- A line that begins with neither a blank nor a quote guards all quotes in it. -/
theorem guarded_cons (hc : isBlank c = false) (hquote : c ≠ '\'') (ht : '\n' ∉ t) (start : Bool) :
    Guarded start (c :: t) ∧ begun start (c :: t) = true := by
  have hfeed : c ≠ '\n' := by
    rintro rfl
    exact absurd hc (by decide)
  have hbegin : begunBy start c = true := by simp [begunBy, hfeed, hc]
  rw [Guarded, begun, List.foldl_cons, hbegin]
  exact ⟨⟨fun he => absurd he hquote, (guarded_line ht).1⟩, (guarded_line ht).2⟩

/-- A replacement that leaves its line begun keeps quotes guarded. -/
theorem Guarded.replace {t new : Text} (hnew : Guarded true new) (hbegun : begun true new = true)
    (h : Guarded start t) : Guarded start (t.replace footerMark new) := by
  have hn : footerMark ≠ [] := by decide
  induction hlen : t.length using Nat.strongRecOn generalizing start t with
  | ind n ih =>
    subst hlen
    cases t with
    | nil => rwa [Text.replace_of_absent hn (Text.not_infix_nil hn)]
    | cons c t =>
      by_cases hc : footerMark <+: c :: t
      · obtain ⟨rest, hrest⟩ := hc
        rw [← hrest] at h ih ⊢
        obtain ⟨hmark, hrest⟩ := guarded_append.mp h
        obtain rfl : start = true := hmark.1 rfl
        have hafter : begun true footerMark = true := by decide
        rw [hafter] at hrest
        rw [Text.replace_needle_append hn, guarded_append, hbegun]
        exact ⟨hnew, ih _ (Text.length_lt_append hn rest) hrest rfl⟩
      · rw [Text.replace_cons_of_not_lead hc]
        exact ⟨h.1, ih _ (by simp) h.2 rfl⟩

theorem guarded_commentLine (h : '\n' ∉ line) (start : Bool) :
    Guarded start (Text.trim ("// ".toList ++ line)) ∧
      begun start (Text.trim ("// ".toList ++ line)) = true := by
  obtain ⟨w, hw, hlead⟩ := commentLine_cons line
  have hfeed : '\n' ∉ w := fun hm => by
    have := hlead.subset hm
    simp [h] at this
  rw [hw]
  exact guarded_cons (by decide) (by decide) hfeed start

theorem guarded_joined {lines : List Text} (hne : lines ≠ [])
    (h : ∀ line ∈ lines, ∀ start, Guarded start line ∧ begun start line = true) (start : Bool) :
    Guarded start (List.intercalate ['\n'] lines) ∧
      begun start (List.intercalate ['\n'] lines) = true := by
  induction lines generalizing start with
  | nil => exact absurd rfl hne
  | cons line lines ih =>
    obtain ⟨hline, hbegun⟩ := h line List.mem_cons_self start
    by_cases hlines : lines = []
    · rw [hlines, List.intercalate_singleton]
      exact ⟨hline, hbegun⟩
    · have hrest := ih hlines (fun l hl => h l (List.mem_cons_of_mem _ hl)) false
      have hfeed : begun start (line ++ ['\n']) = false := by
        rw [begun_append]
        rfl
      rw [Text.intercalate_cons hlines, guarded_append, guarded_append,
        begun_append start (line ++ ['\n']), hfeed]
      exact ⟨⟨⟨hline, guarded_of_no_quote (by decide) _⟩, hrest.1⟩, hrest.2⟩

theorem guarded_commentLines (t : Text) (start : Bool) :
    Guarded start (commentLines t) ∧ begun start (commentLines t) = true := by
  refine guarded_joined (by simpa using Text.pieces_ne_nil t ['\n']) (fun line hline start => ?_)
    start
  obtain ⟨piece, hpiece, rfl⟩ := List.mem_map.mp hline
  exact guarded_commentLine (Text.notMem_of_mem_pieces hpiece) start

theorem guarded_header (banner : Option Text) (start : Bool) : Guarded start (header banner) := by
  cases banner with
  | none => trivial
  | some t =>
    obtain ⟨rest, hrest⟩ := List.rdropWhile_prefix isBlank (l := commentLines t)
    have hlines := (guarded_commentLines t start).1
    rw [← hrest] at hlines
    have hheader : header (some t) = [] ∨
        header (some t) = List.rdropWhile isBlank (commentLines t) ++ ['\n'] := by
      unfold header
      dsimp only
      split
      · exact .inl rfl
      · exact .inr rfl
    rcases hheader with he | he
    · rw [he]
      trivial
    · rw [he]
      exact guarded_append.mpr
        ⟨(guarded_append.mp hlines).1, guarded_of_no_quote (by decide) _⟩

theorem footer_some (t : Text) : footer (some t) = commentLines t := by
  obtain ⟨w, hw⟩ := commentLines_cons t
  have hstart : Text.trimStart (commentLines t) = commentLines t := by
    rw [hw]
    exact List.dropWhile_cons_of_neg (by decide)
  exact hstart

theorem guarded_footer (text : Option Text) (start : Bool) : Guarded start (footer text) := by
  cases text with
  | none => trivial
  | some t => exact footer_some t ▸ (guarded_commentLines t start).1

theorem begun_footer (text : Option Text) : begun true (footer text) = true := by
  cases text with
  | none => rfl
  | some t => exact footer_some t ▸ (guarded_commentLines t true).2

theorem guarded_quote (t : Text) (start : Bool) : Guarded start (Json.quote t) := by
  have hline := Text.lineFeeds_eq_zero.mp (Json.lineFeeds_quote t)
  exact (guarded_cons (by decide) (by decide)
    (fun hm => hline (List.mem_cons_of_mem _ hm)) start).1

theorem guarded_tabbedItems (ts : List Text) (start : Bool) :
    Guarded start (Json.tabbedItems 1 (ts.map .text)) := by
  induction ts generalizing start with
  | nil => trivial
  | cons t ts ih =>
    rw [List.map_cons, Json.tabbedItems, Json.tabbed, guarded_append, guarded_append]
    exact ⟨⟨guarded_of_no_quote (by decide) _, guarded_quote t _⟩, ih _⟩

theorem guarded_tabbedTexts (ts : List Text) (start : Bool) :
    Guarded start (Json.tabbedTexts ts) := by
  cases ts with
  | nil => exact guarded_of_no_quote (by decide) start
  | cons t ts =>
    rw [Json.tabbedTexts, List.map_cons, Json.tabbed, Json.tabbed, guarded_append, guarded_append,
      guarded_append, guarded_append]
    exact ⟨⟨⟨⟨guarded_of_no_quote (by decide) _, guarded_quote t _⟩, guarded_tabbedItems ts _⟩,
      guarded_of_no_quote (by decide) _⟩, guarded_of_no_quote (by decide) _⟩

theorem guarded_shown (s : Settings) {m : Mark} (hm : m ≠ .script) (start : Bool) :
    Guarded start (shown s m) := by
  have hfooter := guarded_footer s.footer true
  have hbegun := begun_footer s.footer
  cases m with
  | modules =>
    rw [shown_early (.inl rfl)]
    exact Guarded.replace hfooter hbegun (guarded_tabbedTexts s.modules start)
  | header =>
    rw [shown_early (.inr rfl)]
    exact Guarded.replace hfooter hbegun (guarded_header s.banner start)
  | footer =>
    rw [shown_late (.inl rfl)]
    exact guarded_footer s.footer start
  | script => exact absurd rfl hm

/-- The last character of a line that is no blank. -/
theorem exists_of_begun (h : begun false t = true) :
    ∃ a c w, t = a ++ [c] ++ w ∧ isBlank c = false ∧ ∀ b ∈ w, isBlank b = true ∧ b ≠ '\n' := by
  induction t using List.reverseRecOn with
  | nil => simp [begun] at h
  | append_singleton t d ih =>
    have hd : begunBy (begun false t) d = true := by
      rw [begun_append] at h
      exact h
    have hfeed : d ≠ '\n' := by
      rintro rfl
      simp [begunBy] at hd
    by_cases hblank : isBlank d = true
    · obtain ⟨a, c, w, rfl, hc, hw⟩ := ih (by simpa [begunBy, hfeed, hblank] using hd)
      refine ⟨a, c, w ++ [d], by simp, hc, fun b hb => ?_⟩
      rcases List.mem_append.mp hb with hb | hb
      · exact hw b hb
      · exact List.mem_singleton.mp hb ▸ ⟨hblank, hfeed⟩
    · exact ⟨t, d, [], by simp, by simpa using hblank, by simp⟩

/-- A line with more than blanks on it does not end where a line of the script begins. -/
theorem beforeScriptLine?_of_begun (h : begun false t = true) (front : Text) :
    beforeScriptLine? (front ++ t) = none := by
  obtain ⟨a, c, w, rfl, hc, hw⟩ := exists_of_begun h
  have hkept : ∀ d ∈ (front ++ (a ++ [c])).getLast?, isBlank d = false := by
    intro d hd
    rw [← List.append_assoc] at hd
    exact Option.mem_unique List.getLast?_concat hd ▸ hc
  have hfeed : w.dropWhile (· ≠ '\n') = [] :=
    List.dropWhile_eq_nil_iff.mpr fun b hb => by simpa using (hw b hb).2
  have hnil : (front ++ (a ++ [c])).isEmpty = false := by simp
  rw [← List.append_assoc, beforeScriptLine?_append hkept fun b hb => (hw b hb).1, hnil,
    keptBlanks?, if_neg (by simp), hfeed]
  rfl

theorem aroundScript_ok (h : aroundScript t = .ok (kept, behind)) :
    ∃ before, t.pieces scriptMark = [before, ';' :: behind] ∧
      beforeScriptLine? before = some kept := by
  unfold aroundScript at h
  split at h
  · rename_i before behind hpieces
    split at h
    · cases h
      exact ⟨before, hpieces, by assumption⟩
    · simp at h
  · simp at h
  · simp at h

/-- A script's mark that is spelled in a filling stands on no line of its own. -/
theorem aroundScript_of_notMem {s : Settings} {ps : List Part}
    (hsealed : Text.Sealed scriptMark (Part.text (shown s)) ps) (hscript : .mark .script ∉ ps)
    (p : Text × Text) : aroundScript (rendered (shown s) ps) ≠ .ok p := by
  have hn : scriptMark ≠ [] := by decide
  have hguarded : ∀ m, .mark m ∈ ps → Guarded false (shown s m) := fun m hm =>
    guarded_shown s (fun he => hscript (he ▸ hm)) false
  have hother : ∀ p ∈ ps, p.text (shown s) ≠ scriptMark := by
    intro p hp he
    cases p with
    | char c =>
      have hc : [c] = scriptMark := he
      exact Mark.not_infix_char .script c (hc ▸ List.infix_refl _)
    | mark m =>
      have hmark : Guarded false scriptMark := he ▸ hguarded m hp
      exact absurd (hmark.1 rfl) (by decide)
  intro haround
  obtain ⟨before, hpieces, hkept⟩ := aroundScript_ok haround
  have hsplit := Text.intercalate_pieces hn (rendered (shown s) ps)
  rw [hpieces, List.intercalate_cons_cons, List.intercalate_singleton] at hsplit
  obtain ⟨p, hp, a, u, v, hpart, rfl⟩ := hsealed.exists_part hn hother hsplit.symm
  cases p with
  | char c => exact Mark.not_infix_char .script c ⟨u, v, hpart.symm⟩
  | mark m =>
    have hfilling := hguarded m hp
    rw [Part.text] at hpart
    rw [hpart, List.append_assoc, guarded_append] at hfilling
    rw [beforeScriptLine?_of_begun (hfilling.2.1 rfl)] at hkept
    cases hkept

end GadgetBuild.Template
