import Mathlib.Algebra.Ring.Parity
import GadgetBuild.Proofs.Json.Lines
import GadgetBuild.Proofs.Json.Tokens
import GadgetBuild.Proofs.Text.Pieces

/-!
Literals in code. Whatever the text, its literal ends where it is meant to end, has no control
character and is read as that text, also between other parts of code.
-/

namespace GadgetBuild

namespace Json

/-- The backslashes at the end of a text. -/
def backslashes (t : Text) : Nat :=
  (t.reverse.takeWhile (· = '\\')).length

theorem backslashes_concat (h : c ≠ '\\') (t : Text) : backslashes (t ++ [c]) = 0 := by
  simp [backslashes, h]

/-- Backslashes that pair off do not touch the parity of those behind them. -/
theorem even_backslashes_append (hs : Even (backslashes s)) (t : Text) :
    Even (backslashes (s ++ t)) ↔ Even (backslashes t) := by
  unfold backslashes at hs ⊢
  rw [List.reverse_append, List.takeWhile_append]
  split
  · rename_i hall
    rw [List.length_append, Nat.even_add, hall, iff_true_right hs]
  · rfl

theorem SpellsUnit.backslashes (h : SpellsUnit n u) (t : Text) :
    backslashes (t ++ '\\' :: 'u' :: u) = 0 := by
  obtain ⟨a, b, c, d, rfl, -, -, -, hd⟩ := h
  have hlast : t ++ '\\' :: 'u' :: [a, b, c, d] = t ++ ['\\', 'u', a, b, c] ++ [d] := by simp
  rw [hlast]
  exact backslashes_concat hd.unescaped.2.1 _

/-- The backslashes at the end of a character's spelling pair off. -/
theorem SpellsChar.even_backslashes (h : SpellsChar c s) : Even (backslashes s) := by
  cases h with
  | plain _ hbackslash _ => exact backslashes_concat hbackslash [] ▸ Even.zero
  | @letter e _ _ =>
    by_cases he : e = '\\'
    · subst he
      decide
    · exact backslashes_concat he ['\\'] ▸ Even.zero
  | unit h => exact h.backslashes [] ▸ Even.zero
  | halves _ _ hlow => exact hlow.backslashes _ ▸ Even.zero

/-- A quote is spelled in one way only. -/
theorem SpellsChar.eq_of_quote_mem (h : SpellsChar c s) (hmem : '"' ∈ s) : s = ['\\', '"'] := by
  have hunit : ∀ {n u}, SpellsUnit n u → '"' ∉ u := fun h hu => (h.unescaped _ hu).1 rfl
  cases h with
  | plain hquote _ _ => exact absurd (List.mem_singleton.mp hmem).symm hquote
  | letter h =>
    simp only [List.mem_cons, List.not_mem_nil, or_false] at hmem
    rw [← hmem.resolve_left (by decide)]
  | unit h => simp [hunit h] at hmem
  | halves _ hhigh hlow => simp [hunit hhigh, hunit hlow] at hmem

/-- No quote inside of a spelled text ends the literal: a backslash that escapes it stands in front. -/
theorem SpellsText.odd_backslashes (h : SpellsText t s) (hs : s = before ++ '"' :: after) :
    Odd (backslashes before) := by
  obtain ⟨parts, hparts, rfl⟩ := h
  induction hparts generalizing before with
  | nil => cases before <;> cases hs
  | @cons c part _ _ hchar _ ih =>
    rw [List.flatten_cons] at hs
    rcases List.append_eq_append_iff.mp hs with ⟨rest, rfl, hrest⟩ | ⟨rest, hpart, hrest⟩
    · rw [← Nat.not_even_iff_odd, even_backslashes_append hchar.even_backslashes,
        Nat.not_even_iff_odd]
      exact ih hrest
    · -- The quote stands in the spelling of this character, unless that is over just before it.
      cases rest with
      | nil =>
        have hnone : Odd (backslashes []) := ih hrest.symm
        exact absurd hnone (by decide)
      | cons d rest =>
        obtain rfl : '"' = d := (List.cons.inj hrest).1
        have hescaped := hchar.eq_of_quote_mem (by simp [hpart])
        rw [hpart] at hescaped
        rcases before with _ | ⟨b, _ | ⟨d, before⟩⟩
        · exact absurd (List.cons.inj hescaped).1 (by decide)
        · obtain rfl := (List.cons.inj hescaped).1
          exact odd_one
        · cases before <;> cases (List.cons.inj (List.cons.inj hescaped).2).2

/-- A literal that stands for a text wherever it is put. -/
structure StandsFor (l v : Text) : Prop where
  /-- Every quote between the first and the last is escaped. -/
  quoted : ∃ inner, l = '"' :: inner ++ ['"'] ∧
    ∀ before after, inner = before ++ '"' :: after → Odd (backslashes before)
  controlFree : ControlFree l
  /-- It spells that text and no other one. -/
  spelled : ∀ w, Spells (.text w) l ↔ w = v
  read : ∀ rest, literal? (l ++ rest) = some (v, rest)

theorem quote_standsFor (v : Text) : StandsFor (quote v) v where
  quoted := ⟨v.flatMap escapeChar, rfl, fun _ _ => (spellsText_quoted v).odd_backslashes⟩
  controlFree := controlFree_quote v
  spelled w := by
    have hquote : Spells (.text v) (quote v) := .text (spellsText_quoted v)
    constructor
    · intro h
      have hread : token? (quote v ++ []) = some (.text w, (quote v).length) := h.token? nofun
      rw [hquote.token? nofun] at hread
      cases hread
      rfl
    · rintro rfl
      exact hquote
  read := literal?_quote v

theorem quote_inj {v w : Text} : quote v = quote w ↔ v = w := by
  constructor
  · intro h
    have hread := literal?_quote v []
    rw [h, literal?_quote] at hread
    cases hread
    rfl
  · exact congrArg quote

/-- Code in parts, with the literal of a text between each two. -/
def spliced (v : Text) (parts : List Text) : Text :=
  List.intercalate (quote v) parts

/-- The texts of the literals between parts of code. -/
def arguments? : List Text → Text → Option (List Text)
  | [], _ => none
  | [last], t => if t = last then some [] else none
  | part :: next :: parts, t => do
    let t ← Text.after? part t
    let (v, t) ← literal? t
    let vs ← arguments? (next :: parts) t
    return v :: vs

/-- Each literal is read as the text that was put in. -/
theorem arguments?_spliced (v part : Text) (parts : List Text) :
    arguments? (part :: parts) (spliced v (part :: parts)) =
      some (List.replicate parts.length v) := by
  induction parts generalizing part with
  | nil => exact if_pos List.intercalate_singleton
  | cons next parts ih =>
    rw [spliced, List.intercalate_cons_cons, List.append_assoc, arguments?, Text.after?_append]
    simp only [Option.bind_eq_bind, Option.bind_some, literal?_quote]
    rw [← spliced, ih]
    rfl

theorem controlFree_spliced (h : ∀ p ∈ parts, ControlFree p) (v : Text) :
    ControlFree (spliced v parts) := by
  intro c hc
  rcases Text.exists_of_mem_intercalate hc with hquote | ⟨p, hp, hmem⟩
  · exact controlFree_quote v c hquote
  · exact h p hp c hmem

end Json
end GadgetBuild
