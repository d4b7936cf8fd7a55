import GadgetBuild.Proofs.Template.Quotes

/-!
What wrapping puts around a bundle. The template is cut at the line of the script before the bundle
is read, so that neither success nor the texts around the bundle depend on what the bundle is.
-/

namespace GadgetBuild.Template

/-- Two texts between which a bundle stands on lines of its own. Together they are a template
without the line of its script. -/
structure Frames (t before behind : Text) : Prop where
  ends : '\n' ∈ before.getLast?
  begins : '\n' ∈ behind.head?
  before_no_mark : ¬ scriptMark <:+: before
  behind_no_mark : ¬ scriptMark <:+: behind
  cut : ∃ blanks, t = before.dropLast ++ blanks ++ (scriptMark ++ [';']) ++ behind.tail ∧
    blanks ≠ [] ∧ (∀ c ∈ blanks, isBlank c = true) ∧ EndsLine before.dropLast

/-- What is kept of the text before the script ends where a line does, and only blanks follow. -/
theorem exists_of_beforeScriptLine? (h : beforeScriptLine? t = some kept) :
    ∃ blanks, t = kept ++ blanks ∧ blanks ≠ [] ∧ (∀ c ∈ blanks, isBlank c = true) ∧
      EndsLine kept := by
  obtain ⟨trimmed, hsplit, hblanks⟩ := exists_trimEnd_append t
  rw [hsplit, beforeScriptLine?_append (trimEnd_last t) hblanks] at h
  obtain ⟨k, hk, rfl⟩ := Option.map_eq_some_iff.mp h
  obtain ⟨rest, hrest, hne, hline⟩ := exists_of_keptBlanks? hk
  refine ⟨rest, ?_, hne, fun c hc => hblanks c (hrest ▸ List.mem_append_right _ hc), ?_⟩
  · rw [List.append_assoc, ← hrest, ← hsplit]
  · rcases hline with ⟨hempty, rfl⟩ | hfeed
    · exact .inl (by simpa using hempty)
    · exact .inr (List.mem_getLast?_append_of_mem_getLast? hfeed)

/-- A template that is cut at its script frames what stands there. -/
theorem frames_of_aroundScript (h : aroundScript t = .ok (before, behind)) :
    Frames t (before ++ ['\n']) ('\n' :: behind) := by
  have hn : scriptMark ≠ [] := by decide
  have hfeed : '\n' ∉ scriptMark := by decide
  obtain ⟨lead, hpieces, hkept⟩ := aroundScript_ok h
  obtain ⟨blanks, rfl, hne, hblanks, hline⟩ := exists_of_beforeScriptLine? hkept
  have hsplit := Text.intercalate_pieces hn t
  rw [hpieces, List.intercalate_cons_cons, List.intercalate_singleton] at hsplit
  have hlead : ¬ scriptMark <:+: before ++ blanks :=
    Text.not_infix_of_mem_pieces hn (hpieces ▸ List.mem_cons_self)
  have hbehind : ¬ scriptMark <:+: ';' :: behind :=
    Text.not_infix_of_mem_pieces hn (hpieces ▸ List.mem_cons_of_mem _ List.mem_cons_self)
  refine ⟨List.getLast?_concat, rfl, ?_, ?_, blanks, ?_, hne, hblanks, ?_⟩
  · rw [Text.infix_concat_of_notMem hn hfeed]
    exact fun hmark => hlead (hmark.trans (List.prefix_append before blanks).isInfix)
  · rw [Text.infix_cons_of_notMem hn hfeed]
    exact fun hmark => hbehind (hmark.trans (List.suffix_cons ';' behind).isInfix)
  · rw [List.dropLast_concat, List.tail_cons, ← hsplit]
    simp only [List.append_assoc, List.cons_append, List.nil_append]
  · rwa [List.dropLast_concat]

theorem wrap_of_error (h : aroundScript (expand s) = .error e) (code : Text) :
    wrap s code = .error e := by
  rw [wrap, h]
  rfl

theorem wrap_of_ok (h : aroundScript (expand s) = .ok (before, behind)) (code : Text) :
    wrap s code = .ok ((before ++ ['\n']) ++ code ++ ('\n' :: behind)) := by
  rw [wrap, h]
  simp only [bind, Except.bind, pure, Except.pure, Sources.join, List.intercalate_cons_cons,
    List.intercalate_singleton, List.append_assoc, List.cons_append, List.nil_append]

theorem wrap_error_iff : wrap s code = .error e ↔ aroundScript (expand s) = .error e := by
  constructor
  · intro hwrap
    cases h : aroundScript (expand s) with
    | error f =>
      rw [wrap_of_error h code] at hwrap
      rw [Except.error.inj hwrap]
    | ok p =>
      rw [wrap_of_ok h code] at hwrap
      cases hwrap
  · exact fun h => wrap_of_error h code

/-- The code of a bundle is opaque to wrapping: with settings for which wrapping fails, it fails for
all code with the same failure, and with other settings all code gets the same text around it, which
is the expanded template but for the line of the script. -/
theorem wrap_opaque (s : Settings) :
    (∃ e, ∀ code, wrap s code = .error e) ∨
      ∃ before behind, Frames (expand s) before behind ∧
        ∀ code, wrap s code = .ok (before ++ code ++ behind) := by
  cases h : aroundScript (expand s) with
  | error e => exact .inl ⟨e, wrap_of_error h⟩
  | ok p => exact .inr ⟨_, _, frames_of_aroundScript h, wrap_of_ok h⟩

end GadgetBuild.Template
