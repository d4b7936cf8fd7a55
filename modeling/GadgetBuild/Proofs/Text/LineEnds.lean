import Mathlib.Data.List.Forall2
import GadgetBuild.Proofs.Text.Pieces

/-!
Line ends. A text is cut into the same pieces with and without carriage returns in front of its line
feeds, by every needle that spells neither.
-/

namespace GadgetBuild.Text

/-- Every line feed with a carriage return in front of it. -/
def crlf (t : Text) : Text :=
  t.replace ['\n'] ['\r', '\n']

/-- Every line feed without the carriage return in front of it. -/
def lf (t : Text) : Text :=
  t.replace ['\r', '\n'] ['\n']

/-- The second text is the first with carriage returns in front of some of its line feeds. There are
none elsewhere. -/
inductive Respelled : Text → Text → Prop where
  | nil : Respelled [] []
  | char (hc : c ≠ '\r') (h : Respelled s t) : Respelled (c :: s) (c :: t)
  | feed (h : Respelled s t) : Respelled ('\n' :: s) ('\r' :: '\n' :: t)

theorem Respelled.refl {t : Text} (h : '\r' ∉ t) : Respelled t t := by
  induction t with
  | nil => exact .nil
  | cons c t ih =>
    rw [List.mem_cons, not_or] at h
    exact .char (Ne.symm h.1) (ih h.2)

theorem Respelled.append (h : Respelled s t) (h' : Respelled s' t') :
    Respelled (s ++ s') (t ++ t') := by
  induction h with
  | nil => exact h'
  | char hc _ ih => exact .char hc ih
  | feed _ ih => exact .feed ih

theorem Respelled.exists_append {s : Text} (h : Respelled (s ++ s') t) :
    ∃ u u', t = u ++ u' ∧ Respelled s u ∧ Respelled s' u' := by
  induction s generalizing t with
  | nil => exact ⟨[], t, rfl, .nil, h⟩
  | cons c s ih =>
    cases h with
    | char hc h =>
      obtain ⟨u, u', rfl, hu, hu'⟩ := ih h
      exact ⟨c :: u, u', rfl, .char hc hu, hu'⟩
    | feed h =>
      obtain ⟨u, u', rfl, hu, hu'⟩ := ih h
      exact ⟨'\r' :: '\n' :: u, u', rfl, .feed hu, hu'⟩

theorem Respelled.eq_nil_iff (h : Respelled s t) : t = [] ↔ s = [] := by
  cases h <;> simp

theorem Respelled.mem (h : Respelled s t) (hc : c ∈ t) : c ∈ s ∨ c = '\r' := by
  induction h with
  | nil => exact .inl hc
  | char _ _ ih =>
    rcases List.mem_cons.mp hc with rfl | hc
    · exact .inl List.mem_cons_self
    · exact (ih hc).imp_left (List.mem_cons_of_mem _)
  | feed _ ih =>
    rcases List.mem_cons.mp hc with rfl | hc
    · exact .inr rfl
    rcases List.mem_cons.mp hc with rfl | hc
    · exact .inl List.mem_cons_self
    · exact (ih hc).imp_left (List.mem_cons_of_mem _)

theorem Respelled.notMem_left (h : Respelled s t) : '\r' ∉ s := by
  induction h with
  | nil => simp
  | char hc _ ih => exact List.not_mem_cons_of_ne_of_not_mem hc.symm ih
  | feed _ ih => exact List.not_mem_cons_of_ne_of_not_mem (by decide) ih

/-- Without line feeds there is one spelling. -/
theorem Respelled.eq_of_no_feed (h : Respelled s t) (hs : '\n' ∉ s) : t = s := by
  induction h with
  | nil => rfl
  | char _ _ ih => rw [ih fun hmem => hs (List.mem_cons_of_mem _ hmem)]
  | feed _ _ => exact absurd List.mem_cons_self hs

theorem Respelled.lf_eq (h : Respelled s t) : lf t = s := by
  induction h with
  | nil => rfl
  | char hc _ ih =>
    rw [lf, replace_cons_of_not_lead fun hlead => hc (List.cons_prefix_cons.mp hlead).1.symm]
    exact congrArg _ ih
  | feed _ ih => exact (replace_needle_append (by simp) _ _).trans (congrArg _ ih)

theorem lf_of_notMem (h : '\r' ∉ t) : lf t = t :=
  (Respelled.refl h).lf_eq

theorem crlf_cons (hc : c ≠ '\n') (t : Text) : crlf (c :: t) = c :: crlf t :=
  replace_cons_of_not_lead (fun hlead => hc (List.cons_prefix_cons.mp hlead).1.symm) _

theorem crlf_feed (t : Text) : crlf ('\n' :: t) = '\r' :: '\n' :: crlf t :=
  replace_needle_append (by simp) t _

theorem respelled_crlf {t : Text} (h : '\r' ∉ t) : Respelled t (crlf t) := by
  induction t with
  | nil => exact .nil
  | cons c t ih =>
    rw [List.mem_cons, not_or] at h
    by_cases hc : c = '\n'
    · subst hc
      rw [crlf_feed]
      exact .feed (ih h.2)
    · rw [crlf_cons hc]
      exact .char (Ne.symm h.1) (ih h.2)

theorem not_prefix_cons {t : Text} (hn : needle ≠ []) (hc : c ∉ needle) : ¬ needle <+: c :: t := by
  intro h
  obtain ⟨w, rfl, -⟩ := (List.prefix_cons_iff.mp h).resolve_left hn
  exact hc List.mem_cons_self

/-- What stands at the front of the second spelling, without its line ends, stands at the front of
the first. -/
theorem Respelled.prefix_left {needle : Text} (h : Respelled s t) (hret : '\r' ∉ needle)
    (ht : needle <+: t) : needle <+: s := by
  induction needle generalizing s t with
  | nil => exact List.nil_prefix
  | cons c needle ih =>
    rw [List.mem_cons, not_or] at hret
    cases h with
    | nil => exact ht
    | char _ h =>
      obtain ⟨rfl, hrest⟩ := List.cons_prefix_cons.mp ht
      exact List.cons_prefix_cons.mpr ⟨rfl, ih h hret.2 hrest⟩
    | feed _ => exact absurd (List.cons_prefix_cons.mp ht).1.symm hret.1

theorem forall₂_modifyHead {R : Text → Text → Prop} {f g : Text → Text}
    (h : List.Forall₂ R ps qs) (hfg : ∀ p q, R p q → R (f p) (g q)) :
    List.Forall₂ R (ps.modifyHead f) (qs.modifyHead g) := by
  cases h with
  | nil => exact .nil
  | cons hpq h => exact .cons (hfg _ _ hpq) h

/-- A needle without line ends cuts both spellings alike. -/
theorem Respelled.pieces (h : Respelled s t) (hn : needle ≠ []) (hfeed : '\n' ∉ needle)
    (hret : '\r' ∉ needle) : List.Forall₂ Respelled (s.pieces needle) (t.pieces needle) := by
  induction hlen : s.length using Nat.strongRecOn generalizing s t with
  | ind n ih =>
    subst hlen
    by_cases hlead : needle <+: s
    · obtain ⟨rest, rfl⟩ := hlead
      obtain ⟨lead, rest', rfl, hneedle, hrest⟩ := h.exists_append
      obtain rfl := hneedle.eq_of_no_feed hfeed
      rw [pieces_needle_append hn, pieces_needle_append hn]
      exact .cons .nil (ih _ (length_lt_append hn rest) hrest rfl)
    · have hlead' := mt (h.prefix_left hret) hlead
      cases h with
      | nil => exact .cons .nil .nil
      | char hc h =>
        rw [pieces_cons hlead, pieces_cons hlead']
        exact forall₂_modifyHead (ih _ (by simp) h rfl) fun p q hpq => .char hc hpq
      | feed h =>
        rw [pieces_cons hlead, pieces_cons hlead', pieces_cons (not_prefix_cons hn hfeed),
          List.modifyHead_modifyHead]
        exact forall₂_modifyHead (ih _ (by simp) h rfl) fun p q hpq => .feed hpq

theorem Respelled.intercalate (hsep : '\r' ∉ sep) (h : List.Forall₂ Respelled ps qs) :
    Respelled (List.intercalate sep ps) (List.intercalate sep qs) := by
  induction h with
  | nil => exact .nil
  | cons hpq h ih =>
    cases h with
    | nil => simpa using hpq
    | cons h' h =>
      rw [List.intercalate_cons_cons, List.intercalate_cons_cons]
      exact (hpq.append (.refl hsep)).append ih

/-- A line break that ends a run without line feeds is one in either spelling. -/
theorem Respelled.exists_line {line : Text} (h : Respelled (line ++ '\n' :: s) t)
    (hline : '\n' ∉ line) :
    ∃ line' s', t = line' ++ '\n' :: s' ∧ '\n' ∉ line' ∧
      Respelled (line ++ ['\n']) (line' ++ ['\n']) ∧ Respelled s s' := by
  obtain ⟨lead, rest, rfl, hlead, hrest⟩ := h.exists_append
  obtain rfl := hlead.eq_of_no_feed hline
  cases hrest with
  | char hc hs => exact ⟨lead, _, rfl, hline, hlead.append (.char hc .nil), hs⟩
  | feed hs =>
    refine ⟨lead ++ ['\r'], _, by simp, by simpa using hline, ?_, hs⟩
    rw [List.append_assoc]
    exact hlead.append (.feed .nil)

/-- The characters but the line ends are the same in both spellings. -/
theorem count_lf (hfeed : c ≠ '\n') (hret : c ≠ '\r') (t : Text) :
    List.count c (lf t) = List.count c t := by
  have hn : ['\r', '\n'] ≠ [] := by simp
  have h := count_replace hn c t ['\n']
  simpa [List.count_cons, hfeed.symm, hret.symm, lf] using h

end GadgetBuild.Text
