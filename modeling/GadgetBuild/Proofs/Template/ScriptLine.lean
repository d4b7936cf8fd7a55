import GadgetBuild.Proofs.Template.Expansion

/-!
The line of the script in a template that shows its places filled or spelled. It is found at the
same place either way, because the blanks in front of the script's place are the template's own.
-/

namespace GadgetBuild.Template

/-- What stays of the blanks in front of the script's place: all up to the start of its line, or of
the first blank line above it. -/
def keptBlanks? (start : Bool) (blanks : Text) : Option Text :=
  if start then if blanks = [] then none else some []
  else
    match blanks.dropWhile (· ≠ '\n') with
    | _ :: _ :: _ => some (blanks.takeWhile (· ≠ '\n') ++ ['\n'])
    | _ => none

/-- What follows a text starts a line. -/
def EndsLine (t : Text) : Prop :=
  t = [] ∨ '\n' ∈ t.getLast?

/-- The blanks that are not kept begin a line, and there are some. -/
theorem exists_of_keptBlanks? (h : keptBlanks? start blanks = some kept) :
    ∃ rest, blanks = kept ++ rest ∧ rest ≠ [] ∧
      (start = true ∧ kept = [] ∨ '\n' ∈ kept.getLast?) := by
  unfold keptBlanks? at h
  split at h
  · rename_i hstart
    split at h
    · simp at h
    · cases h
      exact ⟨blanks, rfl, by assumption, .inl ⟨hstart, rfl⟩⟩
  · split at h
    · rename_i a b rest hdrop
      obtain ⟨hblanks, ha⟩ := Text.split_run hdrop
      obtain rfl : a = '\n' := by simpa using ha
      cases h
      refine ⟨b :: rest, ?_, by simp, .inr List.getLast?_concat⟩
      rw [List.append_assoc]
      exact hblanks
    · simp at h

theorem trimEnd_last (t : Text) : ∀ c ∈ t.trimEnd.getLast?, isBlank c = false := by
  intro c hc
  obtain ⟨hne, rfl⟩ := List.mem_getLast?_eq_getLast hc
  exact Bool.eq_false_iff.mpr (List.rdropWhile_last_not isBlank t hne)

/-- Nothing but blanks stands behind what trimming leaves. -/
theorem exists_trimEnd_append (t : Text) :
    ∃ blanks, t = t.trimEnd ++ blanks ∧ ∀ c ∈ blanks, isBlank c = true :=
  ⟨List.rtakeWhile isBlank t, List.rdropWhile_append_rtakeWhile.symm,
    fun _ hc => List.mem_rtakeWhile_imp hc⟩

theorem trimEnd_append (hkept : ∀ c ∈ kept.getLast?, isBlank c = false)
    (hblanks : ∀ c ∈ blanks, isBlank c = true) : Text.trimEnd (kept ++ blanks) = kept := by
  have hreverse : ∀ c ∈ blanks.reverse, isBlank c = true := by simpa using hblanks
  rw [Text.trimEnd, List.reverse_append, List.dropWhile_append_of_pos hreverse]
  cases kept using List.reverseRecOn with
  | nil => rfl
  | append_singleton kept c =>
    rw [List.reverse_append, List.reverse_singleton, List.singleton_append,
      List.dropWhile_cons_of_neg (by simp [hkept c List.getLast?_concat]), List.reverse_cons,
      List.reverse_reverse]

theorem beforeScriptLine?_append (hkept : ∀ c ∈ kept.getLast?, isBlank c = false)
    (hblanks : ∀ c ∈ blanks, isBlank c = true) :
    beforeScriptLine? (kept ++ blanks) = (keptBlanks? kept.isEmpty blanks).map (kept ++ ·) := by
  have hdrop : (kept ++ blanks).drop kept.length = blanks := List.drop_left
  unfold beforeScriptLine? keptBlanks?
  dsimp only
  rw [trimEnd_append hkept hblanks, hdrop]
  by_cases hnil : kept = []
  · subst hnil
    by_cases hb : blanks = [] <;> simp [hb]
  · have hempty : kept.isEmpty = false := by simpa using hnil
    rw [if_neg hnil, hempty, if_neg (by simp)]
    generalize blanks.dropWhile (· ≠ '\n') = line
    rcases line with _ | ⟨a, _ | ⟨b, rest⟩⟩ <;> simp

theorem split_blanks (ps : List Part) : ∃ xs blanks, ps = xs ++ List.map .char blanks ∧
    (∀ c ∈ blanks, isBlank c = true) ∧ ∀ p ∈ xs.getLast?, p.isBlank = false := by
  induction ps using List.reverseRecOn with
  | nil => exact ⟨[], [], rfl, by simp, by simp⟩
  | append_singleton ps p ih =>
    by_cases hp : p.isBlank = true
    · obtain ⟨xs, blanks, rfl, hblanks, hlast⟩ := ih
      cases p with
      | char c =>
        refine ⟨xs, blanks ++ [c], by simp, fun d hd => ?_, hlast⟩
        rcases List.mem_append.mp hd with hd | hd
        · exact hblanks d hd
        · exact List.mem_singleton.mp hd ▸ hp
      | mark m => simp [Part.isBlank] at hp
    · exact ⟨ps ++ [p], [], by simp, by simp, by simpa using hp⟩

theorem aroundScript_found (h : t.pieces scriptMark = [before, ';' :: behind]) :
    aroundScript t =
      match beforeScriptLine? before with
      | some kept => .ok (kept, behind)
      | none => .error .scriptNotOnOwnLine := by
  rw [aroundScript, h]
  cases hkept : beforeScriptLine? before <;> simp [hkept]

theorem aroundScript_unended (h : t.pieces scriptMark = [before, behind])
    (hbehind : ';' ∉ behind.head?) : aroundScript t = .error .scriptNotOnOwnLine := by
  rw [aroundScript, h]
  split
  · rename_i he
    simp only [List.cons.injEq] at he
    simp [he.2.1] at hbehind
  · rfl
  · rename_i hno
    exact absurd rfl (hno _ _)

theorem aroundScript_of_count (h : t.count scriptMark ≠ 1) :
    aroundScript t = .error (.placeholderCount (t.count scriptMark)) := by
  have hlen := Text.length_pieces t scriptMark
  unfold aroundScript
  split
  · rename_i he
    rw [he] at hlen
    simp at hlen
    omega
  · rename_i he
    rw [he] at hlen
    simp at hlen
    omega
  · rfl

/-- A template by its script's place: what stands in front of the blanks before it, and what stands
behind it. -/
def aroundBlanks (xs : List Part) (blanks : Text) (bs : List Part) : List Part :=
  xs ++ blanks.map .char ++ .mark .script :: bs

/-- A place of the script with a line that no filling of another place reaches. -/
structure OwnLine (xs : List Part) (blanks : Text) (bs : List Part) : Prop where
  parsed : Parsed (aroundBlanks xs blanks bs)
  beside : (aroundBlanks xs blanks bs).IsChain Beside
  blank : ∀ c ∈ blanks, isBlank c = true
  last : ∀ p ∈ xs.getLast?, p.isBlank = false ∧ p ≠ .mark .header ∧ p ≠ .mark .footer

theorem Settled.exists_ownLine {ps : List Part} (h : Settled ps) (hparsed : Parsed ps)
    (hscript : .mark .script ∈ ps) :
    ∃ xs blanks bs, ps = aroundBlanks xs blanks bs ∧ OwnLine xs blanks bs := by
  obtain ⟨as, bs, rfl⟩ := List.append_of_mem hscript
  obtain ⟨xs, blanks, rfl, hblanks, hlast⟩ := split_blanks as
  refine ⟨xs, blanks, bs, rfl, hparsed, h.beside, hblanks, fun p hp => ⟨hlast p hp, ?_⟩⟩
  obtain ⟨ys, rfl⟩ := List.getLast?_eq_some_iff.mp hp
  have hskip : (blanks.map Part.char).filter (fun p => !p.isBlank) = [] := by
    simpa [Part.isBlank] using hblanks
  have happart := h.apart
  rw [List.filter_append, List.filter_append, hskip, List.append_nil, List.filter_append,
    List.filter_cons_of_pos (a := p) (by simp [hlast p hp]), List.filter_nil,
    List.filter_cons_of_pos (by rfl)] at happart
  exact (List.isChain_append.mp happart).2.2 p List.getLast?_concat _ rfl rfl

theorem OwnLine.cut (h : OwnLine xs blanks bs) : OwnLine xs blanks (withoutBreak bs) := by
  have hlead : aroundBlanks xs blanks (withoutBreak bs) <+: aroundBlanks xs blanks bs := by
    rw [aroundBlanks, aroundBlanks, ← withoutBreak_script]
    exact withoutBreak_isPrefix _
  exact ⟨h.parsed.of_isPrefix hlead, List.IsChain.prefix h.beside hlead, h.blank, h.last⟩

/-- The parts of a template around the line of its script. -/
def aroundPlace (xs : List Part) (blanks : Text) (bs : List Part) :
    Except Failure (List Part × List Part) :=
  match bs with
  | .char ';' :: behind =>
    match keptBlanks? xs.isEmpty blanks with
    | some kept => .ok (xs ++ kept.map .char, behind)
    | none => .error .scriptNotOnOwnLine
  | _ => .error .scriptNotOnOwnLine

section OwnLine

variable {r : Mark → Text}

/-- What is shown in front of the blanks does not end in one. -/
theorem OwnLine.kept_last (h : OwnLine xs blanks bs) (hr : Filled .script r) :
    xs = [] ∨ ∃ c ∈ (rendered r xs).getLast?, isBlank c = false := by
  cases xs using List.reverseRecOn with
  | nil => exact .inl rfl
  | append_singleton xs p =>
    obtain ⟨hblank, hheader, hfooter⟩ := h.last p List.getLast?_concat
    refine .inr ?_
    rw [rendered_append]
    cases p with
    | char c => exact ⟨c, List.getLast?_concat, hblank⟩
    | mark m =>
      have hmark : ∃ c ∈ (r m).getLast?, isBlank c = false := by
        rcases hr.spelled_or_fits m with he | ⟨-, hfits⟩
        · rw [he]
          cases m with
          | modules => exact ⟨'\'', by decide, by decide⟩
          | header => exact absurd rfl hheader
          | footer => exact absurd rfl hfooter
          | script => exact ⟨'\'', by decide, by decide⟩
        · cases m with
          | modules => exact ⟨']', hfits.2, by decide⟩
          | header => exact absurd rfl hheader
          | footer => exact absurd rfl hfooter
          | script => exact hfits.elim
      obtain ⟨c, hc, hno⟩ := hmark
      refine ⟨c, List.mem_getLast?_append_of_mem_getLast? ?_, hno⟩
      rwa [rendered_mark, rendered_nil, List.append_nil]

/-- A semicolon shown behind the place of the script is the template's. -/
theorem OwnLine.semicolon (h : OwnLine xs blanks bs) (hr : Filled .script r)
    (hsemi : ';' ∈ (rendered r bs).head?) : ∃ behind, bs = .char ';' :: behind := by
  have hchain : (.mark .script :: bs).IsChain Beside := h.beside.right_of_append
  cases bs with
  | nil => simp at hsemi
  | cons q bs =>
    obtain ⟨hbeside, hchain⟩ := List.isChain_cons_cons.mp hchain
    cases q with
    | char c =>
      obtain rfl : c = ';' := by simpa using hsemi
      exact ⟨bs, rfl⟩
    | mark m =>
      exfalso
      rw [rendered_mark] at hsemi
      have hother : ∀ c, c ∈ (r m).head? → c = ';' := fun c hc =>
        Option.mem_unique (List.mem_head?_append_of_mem_head? hc) hsemi
      rcases hr.spelled_or_fits m with he | ⟨-, hfits⟩
      · have hquote : '\'' ∈ (r m).head? := by
          rw [he]
          cases m <;> decide
        exact absurd (hother _ hquote) (by decide)
      · cases m with
        | modules => exact absurd (hother _ hfits.1) (by decide)
        | header => simpa using hbeside.1 rfl
        | footer =>
          rcases hfits with he | hslash
          · rw [he, List.nil_append] at hsemi
            cases bs with
            | nil => simp at hsemi
            | cons q bs =>
              rcases (List.isChain_cons_cons.mp hchain).1.2.1 rfl with rfl | rfl <;>
                simp at hsemi
          · exact absurd (hother _ hslash) (by decide)
        | script => exact hfits

theorem aroundPlace_ok (h : aroundPlace xs blanks bs = .ok (before, behind)) :
    bs = .char ';' :: behind ∧
      ∃ kept, keptBlanks? xs.isEmpty blanks = some kept ∧ before = xs ++ kept.map .char := by
  unfold aroundPlace at h
  split at h
  · split at h
    · cases h
      exact ⟨rfl, _, by assumption, rfl⟩
    · simp at h
  · simp at h

theorem aroundPlace_unended {bs : List Part} (h : ∀ behind, bs ≠ .char ';' :: behind) :
    aroundPlace xs blanks bs = .error .scriptNotOnOwnLine := by
  unfold aroundPlace
  split
  · exact absurd rfl (h _)
  · rfl

theorem aroundPlace_withoutBreak (xs : List Part) (blanks : Text) (bs : List Part) :
    aroundPlace xs blanks (withoutBreak bs) =
      (aroundPlace xs blanks bs).map fun p => (p.1, withoutBreak p.2) := by
  by_cases hsemi : ∃ behind, bs = .char ';' :: behind
  · obtain ⟨behind, rfl⟩ := hsemi
    rw [withoutBreak, if_neg (by simp), aroundPlace, aroundPlace]
    cases keptBlanks? xs.isEmpty blanks <;> rfl
  · rw [aroundPlace_unended fun behind he => hsemi ⟨behind, he⟩, aroundPlace_unended]
    · rfl
    · intro behind he
      obtain ⟨rest, hrest⟩ := withoutBreak_isPrefix bs
      rw [he, List.cons_append] at hrest
      exact hsemi ⟨_, hrest.symm⟩

/-- The template's place of the script is the only mark of it that is shown. -/
theorem OwnLine.pieces_rendered (h : OwnLine xs blanks bs) (hr : Filled .script r)
    (hno : ∀ p ∈ xs ++ bs, ¬ scriptMark <:+: p.text r) :
    Text.pieces (rendered r (aroundBlanks xs blanks bs)) scriptMark =
      [rendered r xs ++ blanks, rendered r bs] := by
  have hn : scriptMark ≠ [] := by decide
  have hsealed : Text.Sealed scriptMark (Part.text r)
      (xs ++ blanks.map .char ++ .mark .script :: bs) := hr.sealed h.parsed h.beside
  have hbefore : ∀ p ∈ xs ++ blanks.map .char, ¬ scriptMark <:+: p.text r := by
    intro p hp
    rcases List.mem_append.mp hp with hp | hp
    · exact hno p (List.mem_append_left _ hp)
    · obtain ⟨c, -, rfl⟩ := List.mem_map.mp hp
      exact Mark.not_infix_char .script c
  have hplace : (Part.mark .script :: bs).flatMap (Part.text r) = scriptMark ++ rendered r bs := by
    have hmark : r .script = scriptMark := hr.later .script (Nat.le_refl _)
    rw [← hmark]
    rfl
  have hbehind := hsealed.of_append_right.2.pieces_eq_singleton hn
    fun p hp => hno p (List.mem_append_right _ hp)
  have hfirst := hsealed.pieces_append hn hbefore
  rw [hplace, Text.pieces_needle_append hn, rendered, hbehind, List.modifyHead_cons,
    List.append_nil] at hfirst
  have hxs : rendered r (xs ++ blanks.map .char) = rendered r xs ++ blanks := by
    rw [rendered_append, rendered_chars]
  rw [← hxs]
  exact hfirst

/-- The line of the script is found at the same place, whatever the other places show, as long as
none of them shows the script's mark. -/
theorem OwnLine.aroundScript_rendered (h : OwnLine xs blanks bs) (hr : Filled .script r)
    (hno : ∀ p ∈ xs ++ bs, ¬ scriptMark <:+: p.text r) :
    aroundScript (rendered r (aroundBlanks xs blanks bs)) =
      (aroundPlace xs blanks bs).map fun p => (rendered r p.1, rendered r p.2) := by
  have hpieces := h.pieces_rendered hr hno
  by_cases hsemi : ∃ behind, bs = .char ';' :: behind
  · obtain ⟨behind, rfl⟩ := hsemi
    have hempty : (rendered r xs).isEmpty = xs.isEmpty := by
      rcases h.kept_last hr with rfl | ⟨c, hc, -⟩
      · rfl
      · obtain ⟨w, hw⟩ := List.getLast?_eq_some_iff.mp hc
        have hxs : xs ≠ [] := by
          rintro rfl
          simp at hw
        rw [hw, List.isEmpty_eq_false_iff.mpr hxs, List.isEmpty_eq_false_iff.mpr (by simp)]
    have hlast : ∀ c ∈ (rendered r xs).getLast?, isBlank c = false := by
      intro c hc
      rcases h.kept_last hr with rfl | ⟨d, hd, hno⟩
      · simp at hc
      · exact Option.mem_unique hc hd ▸ hno
    rw [rendered_char] at hpieces
    rw [aroundScript_found hpieces, beforeScriptLine?_append hlast h.blank, hempty, aroundPlace]
    cases keptBlanks? xs.isEmpty blanks with
    | none => rfl
    | some kept =>
      simp only [Option.map_some, Except.map, rendered_append, rendered_chars]
  · rw [aroundPlace_unended fun behind he => hsemi ⟨behind, he⟩,
      aroundScript_unended hpieces fun hhead => hsemi (h.semicolon hr hhead)]
    rfl

end OwnLine
end GadgetBuild.Template
