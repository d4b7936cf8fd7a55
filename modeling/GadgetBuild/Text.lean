/-!
Texts as lists of characters. Offsets into a text count UTF-8 bytes, so that an offset names the
same place whatever the text is cut into.
-/

namespace GadgetBuild

/-- Source code, names, ids and messages are all texts. -/
abbrev Text := List Char

namespace Text

instance lawfulBEq : LawfulBEq Text :=
  inferInstance

/-- The number of UTF-8 bytes. -/
def size : Text → Nat
  | [] => 0
  | c :: t => c.utf8Size + size t

/-- An offset is a boundary when no character straddles it. -/
def isBoundary : Nat → Text → Bool
  | 0, _ => true
  | _ + 1, [] => false
  | n + 1, c :: t => c.utf8Size ≤ n + 1 && isBoundary (n + 1 - c.utf8Size) t

/-- The characters that begin before an offset. -/
def upTo : Nat → Text → Text
  | 0, _ => []
  | _ + 1, [] => []
  | n + 1, c :: t => c :: upTo (n + 1 - c.utf8Size) t

/-- The characters that `upTo` leaves. -/
def beyond : Nat → Text → Text
  | 0, t => t
  | _ + 1, [] => []
  | n + 1, c :: t => beyond (n + 1 - c.utf8Size) t

/-- The part of a text between two offsets. -/
def slice (start stop : Nat) (t : Text) : Text :=
  upTo (stop - start) (beyond start t)

/-- What follows `lead` in a text that begins with it. -/
def after? (lead t : Text) : Option Text :=
  List.isPrefixOf? lead t

/-- The decimal digits of a number. -/
def ofNat (n : Nat) : Text :=
  Nat.toDigits 10 n

@[simp] theorem size_nil : size [] = 0 := rfl

@[simp] theorem size_cons (c : Char) (t : Text) : size (c :: t) = c.utf8Size + size t := rfl

@[simp] theorem size_append (s t : Text) : size (s ++ t) = size s + size t := by
  induction s with
  | nil => simp
  | cons c s ih => simp [ih, Nat.add_assoc]

/-- Cutting at any offset loses nothing. -/
@[simp] theorem upTo_append_beyond (n : Nat) (t : Text) : upTo n t ++ beyond n t = t := by
  fun_induction upTo n t with
  | case1 t => simp [beyond]
  | case2 n => simp [beyond]
  | case3 n c t ih => simp [beyond, ih]

theorem isDigit_of_mem_ofNat {c : Char} {n : Nat} (h : c ∈ ofNat n) : c.isDigit = true :=
  Nat.isDigit_of_mem_toDigits (by decide) (by decide) h

theorem notMem_ofNat {c : Char} (h : c.isDigit = false) (n : Nat) : c ∉ ofNat n := by
  intro hmem
  rw [isDigit_of_mem_ofNat hmem] at h
  cases h

end Text
end GadgetBuild
