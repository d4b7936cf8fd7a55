import GadgetBuild.Proofs.Template.Hygiene

/-!
The banner and the footer as comments. A comment ends where the script's language ends a line, and
that is at more characters than the line feeds at which the texts are cut.
-/

namespace GadgetBuild.Template

/-- The characters that end a line of a script. -/
def isTerminator (c : Char) : Bool :=
  c == '\n' || c == '\r' || c == '\u2028' || c == '\u2029'

/-- A text of comments and empty lines. -/
def OnlyComments (t : Text) : Prop :=
  ∀ line ∈ t.splitOnP isTerminator, line = [] ∨ "//".toList <+: line

/-- A text of which each line, up to a line feed, goes on behind another terminator only with
comments. -/
def Confined (t : Text) : Prop :=
  ∀ line ∈ t.pieces ['\n'], ∀ rest ∈ (line.trimEnd.splitOnP isTerminator).tail,
    rest = [] ∨ "//".toList <+: rest

theorem onlyComments_nil : OnlyComments [] := by
  simp [OnlyComments]

theorem onlyComments_line (h : ∀ c ∈ t, isTerminator c = false) :
    OnlyComments t ↔ t = [] ∨ "//".toList <+: t := by
  rw [OnlyComments, List.splitOnP_eq_singleton h, List.forall_mem_singleton]

/-- Text on both sides of a terminator is text of its own. -/
theorem onlyComments_append (hc : isTerminator c = true) {s t : Text} :
    OnlyComments (s ++ c :: t) ↔ OnlyComments s ∧ OnlyComments t := by
  rw [OnlyComments, List.splitOnP_append_cons s t hc, List.forall_mem_append]
  rfl

theorem onlyComments_join {lines : List Text} :
    OnlyComments (List.intercalate ['\n'] lines) ↔ ∀ line ∈ lines, OnlyComments line := by
  induction lines with
  | nil => simp [onlyComments_nil]
  | cons line lines ih =>
    by_cases hlines : lines = []
    · simp [hlines]
    · rw [Text.intercalate_cons hlines, List.append_assoc, List.singleton_append,
        onlyComments_append rfl, ih, List.forall_mem_cons]

/-- What stands in front of a text stands in front of its first line. -/
theorem splitOnP_append {lead : Text} (h : ∀ c ∈ lead, isTerminator c = false) (t : Text) :
    (lead ++ t).splitOnP isTerminator = (t.splitOnP isTerminator).modifyHead (lead ++ ·) := by
  induction lead with
  | nil =>
    obtain ⟨line, lines, hlines⟩ := List.exists_cons_of_ne_nil (List.splitOnP_ne_nil isTerminator t)
    rw [List.nil_append, hlines]
    rfl
  | cons c lead ih =>
    rw [List.cons_append, List.splitOnP_cons_eq_if_modifyHead, if_neg (by simp [h c]),
      ih fun d hd => h d (List.mem_cons_of_mem _ hd), List.modifyHead_modifyHead]
    rfl

theorem onlyComments_comment {lead : Text} (hlead : "//".toList <+: lead)
    (h : ∀ c ∈ lead, isTerminator c = false) (t : Text) :
    OnlyComments (lead ++ t) ↔
      ∀ rest ∈ (t.splitOnP isTerminator).tail, rest = [] ∨ "//".toList <+: rest := by
  obtain ⟨line, lines, hlines⟩ := List.exists_cons_of_ne_nil (List.splitOnP_ne_nil isTerminator t)
  rw [OnlyComments, splitOnP_append h, hlines, List.modifyHead_cons, List.forall_mem_cons,
    List.tail_cons]
  exact and_iff_right (.inr (hlead.trans (List.prefix_append lead line)))

/-- A comment line is the line without the blanks at its end, behind two slashes. -/
theorem commentLine_eq (line : Text) :
    Text.trim ("// ".toList ++ line) =
      (if line.trimEnd = [] then "//".toList else "// ".toList) ++ line.trimEnd := by
  have hstart : Text.trim ("// ".toList ++ line) = Text.trimEnd ("// ".toList ++ line) := rfl
  obtain ⟨blanks, hline, hblanks⟩ := exists_trimEnd_append line
  rw [hstart]
  split
  · rename_i hnil
    rw [hnil, List.nil_append] at hline
    rw [hnil, List.append_nil, hline]
    have hslash : ∀ c ∈ "//".toList.getLast?, isBlank c = false := by
      rintro c ⟨⟩
      rfl
    exact trimEnd_append hslash (List.forall_mem_cons.mpr ⟨rfl, hblanks⟩)
  · rename_i hne
    have hlast : ∀ c ∈ ("// ".toList ++ line.trimEnd).getLast?, isBlank c = false := by
      rw [List.getLast?_append_of_ne_nil _ hne]
      exact trimEnd_last line
    have htrim := trimEnd_append hlast hblanks
    rwa [List.append_assoc, ← hline] at htrim

theorem onlyComments_commentLine (line : Text) :
    OnlyComments (Text.trim ("// ".toList ++ line)) ↔
      ∀ rest ∈ (line.trimEnd.splitOnP isTerminator).tail, rest = [] ∨ "//".toList <+: rest := by
  rw [commentLine_eq]
  split
  · exact onlyComments_comment (List.prefix_refl _) (by simp [isTerminator]) _
  · exact onlyComments_comment (List.prefix_append "//".toList [' ']) (by simp [isTerminator]) _

theorem onlyComments_commentLines (t : Text) : OnlyComments (commentLines t) ↔ Confined t := by
  rw [commentLines, onlyComments_join, List.forall_mem_map]
  exact forall₂_congr fun line _ => onlyComments_commentLine line

/-- Comment lines have no blanks at their end. -/
theorem trimEnd_commentLines (t : Text) : (commentLines t).trimEnd = commentLines t := by
  have hlast : ∀ c ∈ (commentLines t).getLast?, isBlank c = false := by
    obtain ⟨lines, line, hlines⟩ :=
      (List.eq_nil_or_concat' (t.pieces ['\n'])).resolve_left (Text.pieces_ne_nil t _)
    obtain ⟨w, hw, -⟩ := commentLine_cons line
    have hend : ∀ c ∈ ('/' :: w).getLast?, isBlank c = false := hw ▸ trimEnd_last _
    rw [commentLines, hlines, List.map_append, List.map_singleton, hw]
    cases lines with
    | nil => rwa [List.map_nil, List.nil_append, List.intercalate_singleton]
    | cons first lines =>
      rw [Text.intercalate_concat (by simp), List.getLast?_append_of_ne_nil _ (by simp)]
      exact hend
  have htrim : (commentLines t ++ []).trimEnd = commentLines t := trimEnd_append hlast (by simp)
  rwa [List.append_nil] at htrim

theorem header_some (t : Text) : header (some t) = commentLines t ++ ['\n'] := by
  obtain ⟨w, hw⟩ := commentLines_cons t
  have hne : commentLines t ≠ [] := by simp [hw]
  rw [header, Option.map_some, Option.getD_some, trimEnd_commentLines, if_neg hne]

/-- What stands for the banner and for the footer is nothing but comments exactly if their lines go
on with comments behind every other terminator than a line feed. -/
theorem fillings_onlyComments_iff (s : Settings) :
    (OnlyComments (header s.banner) ↔ ∀ t ∈ s.banner, Confined t) ∧
      (OnlyComments (footer s.footer) ↔ ∀ t ∈ s.footer, Confined t) := by
  constructor
  · cases hbanner : s.banner with
    | none => simp [header, Text.trimEnd, onlyComments_nil]
    | some t =>
      rw [header_some, onlyComments_append rfl, onlyComments_commentLines]
      simp [onlyComments_nil]
  · cases hfooter : s.footer with
    | none => simp [footer, Text.trimStart, onlyComments_nil]
    | some t =>
      rw [footer_some, onlyComments_commentLines]
      simp

/-- A carriage return ends the comment of a banner, and what follows it is run. -/
theorem carriageReturn_not_onlyComments :
    wrap (gadgetSettings none (some "a\ralert(1)".toList) none) "main();".toList =
        .ok ("// a\ralert(1)\n// <nowiki>\nmw.loader.using( [\n\t\"vue\"\n], ".toList ++
          "function ( require ) \x7b\n\nmain();\n\n\x7d );\n// </nowiki>\n".toList) ∧
      header (some "a\ralert(1)".toList) = "// a\ralert(1)\n".toList ∧
      ¬ OnlyComments (header (some "a\ralert(1)".toList)) := by
  have hheader : header (some "a\ralert(1)".toList) =
      "// a".toList ++ '\r' :: ("alert(1)".toList ++ '\n' :: []) := by
    decide
  refine ⟨by decide +kernel, hheader, ?_⟩
  rw [hheader, onlyComments_append rfl, onlyComments_append rfl,
    onlyComments_line (t := "alert(1)".toList) (by simp [isTerminator])]
  rintro ⟨-, hrun, -⟩
  exact absurd hrun (by decide)

end GadgetBuild.Template
