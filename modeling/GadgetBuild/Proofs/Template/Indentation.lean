import GadgetBuild.Proofs.Template.Hygiene
import GadgetBuild.Proofs.Template.Opacity

/-!
Where a template may place its script. What stands on the script's line in front of it may be a run
of blanks that begins on a line above, because a line feed is a blank too.
-/

namespace GadgetBuild.Template

/-- A text that ends in a run of blanks from the beginning of some line on. -/
def BlankLead (before : Text) : Prop :=
  ∃ front blanks, before = front ++ blanks ∧ EndsLine front ∧ blanks ≠ [] ∧
    ∀ c ∈ blanks, isBlank c = true

/-- A text with a last line of blanks, which is not empty. -/
def Indented (before : Text) : Prop :=
  ∃ front blanks, before = front ++ blanks ∧ EndsLine front ∧ blanks ≠ [] ∧ '\n' ∉ blanks ∧
    ∀ c ∈ blanks, isBlank c = true

/-- A text that ends with a blank line. What follows is not indented. -/
def EndsBlankLine (before : Text) : Prop :=
  ∃ front blanks, before = front ++ blanks ++ ['\n'] ∧ EndsLine front ∧
    ∀ c ∈ blanks, isBlank c = true

/-- The script's place, as a statement, behind a text of some kind. -/
def Placed (rule : Text → Prop) (t : Text) : Prop :=
  ∃ before behind, t = before ++ scriptMark ++ ';' :: behind ∧ rule before

/-- What a template is judged by: its one mark of the script, and what stands in front of it. -/
structure Verdict {α : Type} (rule : Text → Prop) (t : Text) (result : Except Failure α) :
    Prop where
  accepted : (∃ out, result = .ok out) ↔ t.count scriptMark = 1 ∧ Placed rule t
  miscounted : t.count scriptMark ≠ 1 → result = .error (.placeholderCount (t.count scriptMark))
  misplaced : t.count scriptMark = 1 → ¬ Placed rule t → result = .error .scriptNotOnOwnLine

section Leads

theorem BlankLead.last (h : BlankLead t) : ∃ c ∈ t.getLast?, isBlank c = true := by
  obtain ⟨front, blanks, rfl, -, hne, hblank⟩ := h
  rw [List.getLast?_append_of_ne_nil _ hne]
  exact ⟨blanks.getLast hne, List.getLast_mem_getLast? hne, hblank _ (List.getLast_mem hne)⟩

theorem Indented.blankLead (h : Indented t) : BlankLead t := by
  obtain ⟨front, blanks, rfl, hline, hne, -, hblank⟩ := h
  exact ⟨front, blanks, rfl, hline, hne, hblank⟩

theorem EndsBlankLine.blankLead (h : EndsBlankLine t) : BlankLead t := by
  obtain ⟨front, blanks, rfl, hline, hblank⟩ := h
  refine ⟨front, blanks ++ ['\n'], List.append_assoc _ _ _, hline, by simp, fun c hc => ?_⟩
  rcases List.mem_append.mp hc with hc | hc
  · exact hblank c hc
  · exact List.mem_singleton.mp hc ▸ rfl

theorem EndsBlankLine.not_indented (h : EndsBlankLine t) : ¬ Indented t := by
  rintro ⟨front, blanks, he, -, hne, hfeed, -⟩
  obtain ⟨front', blanks', rfl, -, -⟩ := h
  have hlast := congrArg List.getLast? he
  rw [List.getLast?_concat, List.getLast?_append_of_ne_nil _ hne] at hlast
  exact hfeed (List.mem_of_mem_getLast? hlast.symm)

/-- Blanks up to the script either go on on its line or end with the line above. -/
theorem BlankLead.indented_or (h : BlankLead t) : Indented t ∨ EndsBlankLine t := by
  obtain ⟨front, blanks, rfl, hline, hne, hblank⟩ := h
  have hsplit : blanks.rdropWhile (· ≠ '\n') ++ blanks.rtakeWhile (· ≠ '\n') = blanks :=
    List.rdropWhile_append_rtakeWhile
  by_cases hlast : blanks.rtakeWhile (· ≠ '\n') = []
  · rw [List.rtakeWhile_eq_nil_iff] at hlast
    have hfeed : blanks.getLast hne = '\n' := by simpa using hlast hne
    refine .inr ⟨front, blanks.dropLast, ?_, hline, fun c hc => hblank c (List.dropLast_subset _ hc)⟩
    rw [List.append_assoc, ← hfeed, List.dropLast_append_getLast hne]
  · refine .inl ⟨front ++ blanks.rdropWhile (· ≠ '\n'), _, ?_, ?_, hlast, ?_, fun c hc => ?_⟩
    · rw [List.append_assoc, hsplit]
    · by_cases hlines : blanks.rdropWhile (· ≠ '\n') = []
      · rwa [hlines, List.append_nil]
      · have hfeed : (blanks.rdropWhile (· ≠ '\n')).getLast hlines = '\n' := by
          simpa using List.rdropWhile_last_not (· ≠ '\n') blanks hlines
        have hlines := List.getLast?_eq_some_getLast hlines
        rw [hfeed] at hlines
        exact .inr (List.mem_getLast?_append_of_mem_getLast? hlines)
    · intro hfeed
      simpa using List.mem_rtakeWhile_imp hfeed
    · exact hblank c (hsplit ▸ List.mem_append_right _ hc)

/-- Blanks at the end of a text that begin a line go on behind a line feed in any longer run. -/
theorem exists_of_blanks (hline : EndsLine front) (hblank : ∀ c ∈ blanks, isBlank c = true)
    (hc : isBlank c = false) (h : front ++ blanks = kept ++ c :: rest) :
    ∃ m, rest = m ++ '\n' :: blanks := by
  have hno : c ∉ '\n' :: blanks := by
    intro hmem
    rcases List.mem_cons.mp hmem with rfl | hmem
    · exact absurd hc (by decide)
    · simp [hblank c hmem] at hc
  rcases hline with rfl | hfeed
  · rw [List.nil_append] at h
    exact absurd (List.mem_cons_of_mem _ (h ▸ List.mem_append_right _ List.mem_cons_self)) hno
  obtain ⟨lead, rfl⟩ := List.getLast?_eq_some_iff.mp hfeed
  rw [List.append_assoc, List.singleton_append] at h
  rcases List.append_eq_append_iff.mp h with ⟨m, -, hm⟩ | ⟨m, -, hm⟩
  · exact absurd (hm ▸ List.mem_append_right _ List.mem_cons_self) hno
  · cases m with
    | nil => exact absurd ((List.cons.inj hm).1 ▸ List.mem_cons_self) hno
    | cons d m => exact ⟨m, (List.cons.inj hm).2⟩

/-- A line for the script is found where a run of blanks from the beginning of a line leads up to
it. -/
theorem beforeScriptLine?_isSome_iff :
    (∃ kept, beforeScriptLine? t = some kept) ↔ BlankLead t := by
  constructor
  · rintro ⟨kept, h⟩
    obtain ⟨blanks, rfl, hne, hblank, hline⟩ := exists_of_beforeScriptLine? h
    exact ⟨kept, blanks, rfl, hline, hne, hblank⟩
  · rintro ⟨front, blanks, rfl, hline, hne, hblank⟩
    obtain ⟨rest, hsplit, hrest⟩ := exists_trimEnd_append (front ++ blanks)
    have hlast := trimEnd_last (front ++ blanks)
    generalize (front ++ blanks).trimEnd = kept at *
    rw [hsplit, beforeScriptLine?_append hlast hrest]
    cases kept using List.reverseRecOn with
    | nil =>
      rw [List.nil_append] at hsplit
      simp [keptBlanks?, ← hsplit, hne]
    | append_singleton kept c =>
      rw [List.append_assoc] at hsplit
      obtain ⟨m, rfl⟩ := exists_of_blanks hline hblank (hlast c List.getLast?_concat) hsplit
      have hfeed : (m ++ '\n' :: blanks).dropWhile (· ≠ '\n') ≠ [] := by
        simp [List.dropWhile_eq_nil_iff]
      obtain ⟨a, line, hdrop⟩ := List.exists_cons_of_ne_nil hfeed
      obtain ⟨hrun, -⟩ := Text.split_run hdrop
      cases line with
      | nil =>
        have hend := Text.eq_nil_of_last hrun fun hmem => by
          simpa using Text.mem_takeWhile hmem
        exact absurd hend hne
      | cons b line =>
        have hnil : (kept ++ [c]).isEmpty = false := by simp
        rw [hnil, keptBlanks?, if_neg (by simp), hdrop]
        exact ⟨_, rfl⟩

end Leads

section Places

/-- Behind a blank the mark of the script is found. -/
theorem pieces_scriptMark (hlast : ∃ c ∈ before.getLast?, isBlank c = true) (behind : Text) :
    (before ++ scriptMark ++ behind).pieces scriptMark =
      before.pieces scriptMark ++ behind.pieces scriptMark := by
  have hn : scriptMark ≠ [] := Mark.script.text_ne_nil
  obtain ⟨c, hc, hblank⟩ := hlast
  have hsolid : scriptMark.all (fun d => !isBlank d) = true := rfl
  have hmark : c ∉ scriptMark := by
    intro hmem
    have hc := List.all_eq_true.mp hsolid c hmem
    simp [hblank] at hc
  rw [List.append_assoc, Text.pieces_append hn (Text.not_crosses_of_last hmark hc),
    Text.pieces_needle_append hn, Text.glue_nil_cons (Text.pieces_ne_nil _ _)]

theorem pieces_of_count_one (hlast : ∃ c ∈ before.getLast?, isBlank c = true)
    (h : (before ++ scriptMark ++ behind).count scriptMark = 1) :
    (before ++ scriptMark ++ behind).pieces scriptMark = [before, behind] := by
  have hn : scriptMark ≠ [] := Mark.script.text_ne_nil
  have hpieces := pieces_scriptMark hlast behind
  have hlen := congrArg List.length hpieces
  rw [List.length_append, Text.length_pieces, Text.length_pieces, Text.length_pieces, h] at hlen
  have hbefore : before.count scriptMark = 0 := by omega
  have hbehind : behind.count scriptMark = 0 := by omega
  rw [Text.count_eq_zero_iff hn, ← Text.pieces_eq_singleton_iff hn] at hbefore hbehind
  rw [hpieces, hbefore, hbehind]
  rfl

theorem Placed.imp {rule rule' : Text → Prop} (h : Placed rule t)
    (himp : ∀ before, rule before → rule' before) : Placed rule' t := by
  obtain ⟨before, behind, ht, hrule⟩ := h
  exact ⟨before, behind, ht, himp before hrule⟩

/-- Where the mark of the script stands once, it has one text in front of it. -/
theorem placed_and {rule rule' : Text → Prop} (hrule : ∀ before, rule before → BlankLead before)
    (hrule' : ∀ before, rule' before → BlankLead before) (hone : t.count scriptMark = 1)
    (h : Placed rule t) (h' : Placed rule' t) : ∃ before, rule before ∧ rule' before := by
  obtain ⟨before, behind, rfl, hb⟩ := h
  obtain ⟨before', behind', ht, hb'⟩ := h'
  have hpieces := pieces_of_count_one (hrule before hb).last hone
  rw [ht] at hone hpieces
  rw [pieces_of_count_one (hrule' before' hb').last hone] at hpieces
  exact ⟨before, hb, (List.cons.inj hpieces).1 ▸ hb'⟩

theorem aroundScript_ok_iff :
    (∃ p, aroundScript t = .ok p) ↔ t.count scriptMark = 1 ∧ Placed BlankLead t := by
  constructor
  · rintro ⟨⟨kept, behind⟩, h⟩
    obtain ⟨before, hpieces, hkept⟩ := aroundScript_ok h
    have hlen := congrArg List.length hpieces
    have hsplit : List.intercalate scriptMark (t.pieces scriptMark) = t :=
      Text.intercalate_pieces Mark.script.text_ne_nil t
    rw [hpieces, List.intercalate_cons_cons, List.intercalate_singleton] at hsplit
    rw [Text.length_pieces] at hlen
    exact ⟨Nat.succ.inj hlen, before, behind, hsplit.symm,
      beforeScriptLine?_isSome_iff.mp ⟨kept, hkept⟩⟩
  · rintro ⟨hone, before, behind, rfl, hlead⟩
    obtain ⟨kept, hkept⟩ := beforeScriptLine?_isSome_iff.mpr hlead
    rw [aroundScript_found (pieces_of_count_one hlead.last hone), hkept]
    exact ⟨_, rfl⟩

theorem aroundScript_of_count_one (hone : t.count scriptMark = 1)
    (h : ∀ p, aroundScript t ≠ .ok p) : aroundScript t = .error .scriptNotOnOwnLine := by
  obtain ⟨before, behind, hpieces⟩ : ∃ before behind, t.pieces scriptMark = [before, behind] :=
    List.length_eq_two.mp (by rw [Text.length_pieces, hone])
  by_cases hsemi : ';' ∈ behind.head?
  · obtain ⟨behind, rfl⟩ := List.head?_eq_some_iff.mp hsemi
    have hfound := aroundScript_found hpieces
    cases hkept : beforeScriptLine? before with
    | none => rw [hfound, hkept]
    | some kept =>
      rw [hkept] at hfound
      exact absurd hfound (h _)
  · exact aroundScript_unended hpieces hsemi

end Places

section Verdicts

theorem wrap_ok_iff : (∃ out, wrap s code = .ok out) ↔ ∃ p, aroundScript (expand s) = .ok p := by
  constructor
  · rintro ⟨out, h⟩
    exact exists_aroundScript_of_wrap_ok h
  · rintro ⟨⟨before, behind⟩, h⟩
    exact ⟨_, wrap_of_ok h code⟩

/-- Wrapping accepts blanks in front of the script that begin any line. -/
theorem wrap_verdict (s : Settings) (code : Text) :
    Verdict BlankLead (expand s) (wrap s code) := by
  refine ⟨wrap_ok_iff.trans aroundScript_ok_iff, fun hcount => ?_, fun hone hplaced => ?_⟩
  · exact wrap_of_error (aroundScript_of_count hcount) code
  · refine wrap_of_error (aroundScript_of_count_one hone fun p hp => ?_) code
    exact hplaced (aroundScript_ok_iff.mp ⟨p, hp⟩).2

/-- Between the two rules there is the script's place below a blank line, at the very beginning of
its own. -/
theorem Verdict.indented_iff {α : Type} {result : Except Failure α}
    (h : Verdict BlankLead t result) :
    Verdict Indented t result ↔ ¬ (t.count scriptMark = 1 ∧ Placed EndsBlankLine t) := by
  constructor
  · rintro hindented ⟨hone, hplaced⟩
    have hok := h.accepted.mpr ⟨hone, hplaced.imp fun _ hb => hb.blankLead⟩
    obtain ⟨before, hline, hbefore⟩ := placed_and (fun _ hb => hb.blankLead)
      (fun _ hb => hb.blankLead) hone hplaced (hindented.accepted.mp hok).2
    exact hline.not_indented hbefore
  · intro hno
    have hrules : t.count scriptMark = 1 → (Placed BlankLead t ↔ Placed Indented t) := by
      intro hone
      refine ⟨?_, fun hplaced => hplaced.imp fun _ hb => hb.blankLead⟩
      rintro ⟨before, behind, ht, hlead⟩
      refine ⟨before, behind, ht, hlead.indented_or.resolve_right fun hline => ?_⟩
      exact hno ⟨hone, before, behind, ht, hline⟩
    refine ⟨h.accepted.trans (and_congr_right hrules), h.miscounted, fun hone hplaced => ?_⟩
    exact h.misplaced hone (mt (hrules hone).mp hplaced)

/-- Wrapping judges a template by the blanks in front of its script, with a failure for each way to
be wrong. It asks for an indented line of its own unless the script stands right below a blank
line. -/
theorem wrap_verdict_iff (s : Settings) (code : Text) :
    Verdict BlankLead (expand s) (wrap s code) ∧
      (Verdict Indented (expand s) (wrap s code) ↔
        ¬ ((expand s).count scriptMark = 1 ∧ Placed EndsBlankLine (expand s))) :=
  ⟨wrap_verdict s code, (wrap_verdict s code).indented_iff⟩

/-- A script without any indentation, below an empty line. -/
theorem unindented_not_rejected :
    wrap (gadgetSettings (some "x\n\n'script';".toList) none none) "main();".toList =
        .ok "x\n\nmain();\n".toList ∧
      ¬ Verdict Indented
        (expand (gadgetSettings (some "x\n\n'script';".toList) none none))
        (wrap (gadgetSettings (some "x\n\n'script';".toList) none none) "main();".toList) := by
  have hexpand : expand (gadgetSettings (some "x\n\n'script';".toList) none none) =
      "x\n\n'script';".toList := by
    decide +kernel
  refine ⟨by decide +kernel, fun h => ?_⟩
  refine (wrap_verdict _ _).indented_iff.mp h ⟨?_, ?_⟩
  · rw [hexpand]
    decide +kernel
  · rw [hexpand]
    exact ⟨"x\n\n".toList, [], by decide, "x\n".toList, [], by decide, .inr rfl, by simp⟩

end Verdicts

end GadgetBuild.Template
