import GadgetBuild.Text

/-!
Sources joined by line feeds, and the number of the last line so far, in 32 bits.
-/

namespace GadgetBuild

namespace Text

/-- The number of line feeds. -/
def lineFeeds (t : Text) : Nat :=
  List.count '\n' t

end Text

/-- Sources in the order in which they are joined. -/
abbrev Sources := List Text

namespace Sources

/-- The sources with a line feed between each two. -/
def join (sources : Sources) : Text :=
  List.intercalate ['\n'] sources

/-- A count in 32 bits. One that does not fit stays at the greatest. -/
def clampCount (n : Nat) : Nat :=
  if n < UInt32.size then n else UInt32.size - 1

/-- The line, counted from zero, of the last character so far. Counts are added up in 32 bits. -/
def line (sources : Sources) : Nat :=
  (sources.foldr (fun s n => clampCount s.lineFeeds + n) 0 + clampCount (sources.length - 1)) %
    UInt32.size

end Sources
end GadgetBuild
