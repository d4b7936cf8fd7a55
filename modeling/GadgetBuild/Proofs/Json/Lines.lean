import Mathlib.Data.List.Chain
import GadgetBuild.Json.Printer
import GadgetBuild.Lines
import GadgetBuild.Proofs.Json.Literals

/-!
The lines of printed texts. A literal has no control character and so is one line, and no line of a
printed list of texts ends in a semicolon.
-/

namespace GadgetBuild

namespace Text

theorem lineFeeds_append (s t : Text) : (s ++ t).lineFeeds = s.lineFeeds + t.lineFeeds :=
  List.count_append

theorem lineFeeds_eq_zero {t : Text} : t.lineFeeds = 0 ↔ '\n' ∉ t :=
  List.count_eq_zero

/-- What follows begins a line. -/
def EndsLine (t : Text) : Prop :=
  ∀ c ∈ t.getLast?, c = '\n'

theorem lineFeeds_ofNat (n : Nat) : (ofNat n).lineFeeds = 0 :=
  lineFeeds_eq_zero.mpr (notMem_ofNat (by decide) n)

end Text

namespace Json

/-- No control character, and so neither a line feed nor a carriage return. -/
def ControlFree (t : Text) : Prop :=
  ∀ c ∈ t, 0x20 ≤ c.toNat

instance (t : Text) : Decidable (ControlFree t) :=
  List.decidableBAll (fun c : Char => 0x20 ≤ c.toNat) t

theorem controlFree_append : ControlFree (s ++ t) ↔ ControlFree s ∧ ControlFree t :=
  List.forall_mem_append

theorem ControlFree.notMem (h : ControlFree t) (hc : c.toNat < 0x20) : c ∉ t :=
  fun hmem => absurd (h c hmem) (Nat.not_le_of_lt hc)

theorem controlFree_of_unescaped (h : ∀ c ∈ t, Unescaped c) : ControlFree t :=
  fun c hc => (h c hc).2.2

theorem controlFree_letter (h : (e, c) ∈ letterEscapes) : ControlFree ['\\', e] := by
  simp only [letterEscapes, List.mem_cons, Prod.mk.injEq, List.not_mem_nil, or_false] at h
  rcases h with ⟨rfl, -⟩ | ⟨rfl, -⟩ | ⟨rfl, -⟩ | ⟨rfl, -⟩ | ⟨rfl, -⟩ | ⟨rfl, -⟩ | ⟨rfl, -⟩ | ⟨rfl, -⟩
  all_goals decide

/-- No spelling of a character has a control character in it. -/
theorem SpellsChar.controlFree (h : SpellsChar c s) : ControlFree s := by
  have hlead : ControlFree ['\\', 'u'] := by decide
  cases h with
  | plain _ _ hcontrol => exact List.forall_mem_singleton.mpr hcontrol
  | letter h => exact controlFree_letter h
  | unit h => exact controlFree_append.mpr ⟨hlead, controlFree_of_unescaped h.unescaped⟩
  | halves _ hhigh hlow =>
    have hfirst := controlFree_append.mpr ⟨hlead, controlFree_of_unescaped hhigh.unescaped⟩
    have hsecond := controlFree_append.mpr ⟨hlead, controlFree_of_unescaped hlow.unescaped⟩
    exact controlFree_append.mpr ⟨hfirst, hsecond⟩

theorem controlFree_quote (t : Text) : ControlFree (quote t) := by
  have hmark : ControlFree ['"'] := by decide
  refine controlFree_append.mpr ⟨controlFree_append.mpr ⟨hmark, fun d hd => ?_⟩, hmark⟩
  obtain ⟨c, -, hc⟩ := List.mem_flatMap.mp hd
  exact (spellsChar_escapeChar c).controlFree d hc

/-- A literal is one line, whatever the text. -/
theorem lineFeeds_quote (t : Text) : (quote t).lineFeeds = 0 :=
  Text.lineFeeds_eq_zero.mpr ((controlFree_quote t).notMem (by decide))

/-- No line of a text ends in a semicolon. -/
def Unfinished (t : Text) : Prop :=
  (t.IsChain fun a b => a = ';' → b ≠ '\n') ∧ ';' ∉ t.getLast?

instance (t : Text) : Decidable (Unfinished t) :=
  inferInstanceAs (Decidable (_ ∧ _))

theorem Unfinished.append (hs : Unfinished s) (ht : Unfinished t) : Unfinished (s ++ t) := by
  refine ⟨hs.1.append ht.1 fun a ha b _ he => absurd (he ▸ ha) hs.2, ?_⟩
  cases t using List.reverseRecOn with
  | nil => simpa using hs.2
  | append_singleton t c => simpa [List.getLast?_append] using ht.2

theorem unfinished_quote (t : Text) : Unfinished (quote t) := by
  have hno : '\n' ∉ quote t := Text.lineFeeds_eq_zero.mp (lineFeeds_quote t)
  refine ⟨List.Pairwise.isChain (List.pairwise_of_forall_mem_list fun a _ b hb _ he => ?_), ?_⟩
  · exact hno (he ▸ hb)
  · simp [quote, List.getLast?_cons]

theorem unfinished_tabbedItems (ts : List Text) : Unfinished (tabbedItems 1 (ts.map .text)) := by
  induction ts with
  | nil => exact ⟨.nil, by simp [tabbedItems]⟩
  | cons t ts ih =>
    have hlead : Unfinished (',' :: indent 1) := by decide
    rw [List.map_cons, tabbedItems, tabbed]
    exact (hlead.append (unfinished_quote t)).append ih

/-- The lines of a printed list end in brackets, quotes and commas. -/
theorem unfinished_tabbedTexts (ts : List Text) : Unfinished (tabbedTexts ts) := by
  cases ts with
  | nil => decide
  | cons t ts =>
    have hlead : Unfinished ('[' :: indent 1) := by decide
    have hend : Unfinished (indent 0 ++ [']']) := by decide
    rw [tabbedTexts, List.map_cons, tabbed, tabbed, List.append_assoc _ (indent 0)]
    exact ((hlead.append (unfinished_quote t)).append (unfinished_tabbedItems ts)).append hend

theorem tabbedTexts_brackets (ts : List Text) :
    '[' ∈ (tabbedTexts ts).head? ∧ ']' ∈ (tabbedTexts ts).getLast? := by
  cases ts with
  | nil => decide
  | cons t ts =>
    rw [tabbedTexts, List.map_cons, tabbed]
    exact ⟨by simp, List.getLast?_concat⟩

end Json
end GadgetBuild
