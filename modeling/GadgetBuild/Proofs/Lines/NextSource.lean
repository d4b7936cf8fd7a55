import GadgetBuild.Proofs.Json.Lines
import GadgetBuild.Proofs.Text.Pieces

/-!
The line on which an appended source starts. What is counted is the number of the last line so far.
The next source starts there only if it is the first, since a line feed is put behind every other.
-/

namespace GadgetBuild.Sources

theorem lineFeeds_join (sources : Sources) :
    (join sources).lineFeeds = (sources.map Text.lineFeeds).sum + (sources.length - 1) := by
  have hcount := Text.count_intercalate '\n' ['\n'] sources
  rw [List.count_singleton_self, Nat.mul_one] at hcount
  exact hcount

/-- Behind the first source a line feed parts what is appended from what is there. -/
theorem join_append (s : Text) {sources : Sources} (h : sources ≠ []) :
    join (sources ++ [s]) = join sources ++ '\n' :: s := by
  rw [join, Text.intercalate_concat h, List.append_assoc, List.singleton_append]
  rfl

theorem clampCount_of_lt (h : n < UInt32.size) : clampCount n = n :=
  if_pos h

theorem foldr_clampCount {sources : Sources}
    (h : (sources.map Text.lineFeeds).sum < UInt32.size) :
    sources.foldr (fun s n => clampCount s.lineFeeds + n) 0 =
      (sources.map Text.lineFeeds).sum := by
  induction sources with
  | nil => rfl
  | cons s sources ih =>
    rw [List.map_cons, List.sum_cons] at h ⊢
    rw [List.foldr_cons, ih (by omega), clampCount_of_lt (by omega)]

/-- As long as the line feeds can be counted, the line is the last one of the joined sources. -/
theorem line_eq_lineFeeds {sources : Sources} (h : (join sources).lineFeeds < UInt32.size) :
    line sources = (join sources).lineFeeds := by
  rw [lineFeeds_join] at h
  rw [line, foldr_clampCount (by omega), clampCount_of_lt (by omega), lineFeeds_join,
    Nat.mod_eq_of_lt h]

/-- The text ends in a source whose first character stands on a line, counted from zero. -/
def StartsOn (n : Nat) (s joined : Text) : Prop :=
  ∃ before : Text, joined = before ++ s ∧ before.lineFeeds = n

theorem startsOn_append {before s : Text} :
    StartsOn n s (before ++ s) ↔ n = before.lineFeeds := by
  constructor
  · rintro ⟨other, hother, rfl⟩
    rw [List.append_cancel_right hother]
  · rintro rfl
    exact ⟨before, rfl, rfl⟩

/-- Where an appended source starts. -/
theorem startsOn_join (sources : Sources) (s : Text) : StartsOn n s (join (sources ++ [s])) ↔
    n = (join sources).lineFeeds + if sources = [] then 0 else 1 := by
  by_cases h : sources = []
  · subst h
    have hfirst : join ([] ++ [s]) = [] ++ s := List.intercalate_singleton
    rw [hfirst, startsOn_append, if_pos rfl]
    rfl
  · have hfront : (join sources ++ ['\n']).lineFeeds = (join sources).lineFeeds + 1 :=
      Text.lineFeeds_append _ _
    rw [join_append s h, ← List.singleton_append, ← List.append_assoc, startsOn_append, hfront,
      if_neg h]

theorem lineFeeds_join_le (sources : Sources) (s : Text) :
    (join sources).lineFeeds ≤ (join (sources ++ [s])).lineFeeds := by
  rw [lineFeeds_join, lineFeeds_join, List.map_append, List.sum_append, List.length_append]
  omega

/-- The counted line is the last one so far. A source that is appended starts on it only if it is
the first, and on the line behind it otherwise. -/
theorem startsOn_line_iff {sources : Sources} {s : Text}
    (h : (join (sources ++ [s])).lineFeeds < UInt32.size) :
    line sources = (join sources).lineFeeds ∧
      StartsOn (line sources + if sources = [] then 0 else 1) s (join (sources ++ [s])) ∧
      (StartsOn (line sources) s (join (sources ++ [s])) ↔ sources = []) := by
  have hline : line sources = (join sources).lineFeeds :=
    line_eq_lineFeeds (Nat.lt_of_le_of_lt (lineFeeds_join_le sources s) h)
  refine ⟨hline, ?_, ?_⟩
  · rw [startsOn_join, hline]
  · rw [startsOn_join, hline]
    by_cases hsources : sources = []
    · simp [hsources]
    · simp [hsources]

/-- Code in two parts, the first of which ends its last line. -/
def openedFunction : Sources :=
  ["// <nowiki>\n(function () \x7b\n".toList, "a();\nb();".toList]

def closedFunction : Text :=
  "\n\x7d)();".toList

theorem closedFunction_startsOn :
    (join (openedFunction ++ [closedFunction])).lineFeeds < UInt32.size ∧
      line openedFunction = 4 ∧
      StartsOn 5 closedFunction (join (openedFunction ++ [closedFunction])) ∧
      ¬ StartsOn 4 closedFunction (join (openedFunction ++ [closedFunction])) := by
  have hcounted : (join (openedFunction ++ [closedFunction])).lineFeeds < UInt32.size := by
    decide +kernel
  have hline : line openedFunction = 4 := by decide +kernel
  have hne : openedFunction ≠ [] := by decide
  obtain ⟨-, hstarts, hiff⟩ := startsOn_line_iff hcounted
  rw [hline, if_neg hne] at hstarts
  rw [hline] at hiff
  exact ⟨hcounted, hline, hstarts, fun h => hne (hiff.mp h)⟩

/-- Behind a source on one line the next one starts on a line of its own. -/
theorem secondSource_not_startsOn_line :
    (join ["a".toList, "b".toList]).lineFeeds < UInt32.size ∧
      ¬ StartsOn (line ["a".toList]) "b".toList (join ["a".toList, "b".toList]) := by
  refine ⟨by decide +kernel, fun h => ?_⟩
  have hline := (startsOn_join ["a".toList] "b".toList).mp h
  exact absurd hline (by decide +kernel)

end GadgetBuild.Sources
