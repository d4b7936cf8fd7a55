import Mathlib.Data.List.Forall2
import GadgetBuild.Json.Quote
import GadgetBuild.Json.Token

/-!
The characters of string literals, and literals read back. A text is read from any of its
spellings, whatever follows the literal, and the way in which it is quoted is one of them.
-/

namespace GadgetBuild.Json

theorem digitChar_isAlphanum : ∀ n < 16, (Nat.digitChar n).isAlphanum = true := by
  decide

/-- Escapes are spelled with backslashes, letters and digits. -/
theorem eq_of_mem_escapeChar (h : d ∈ escapeChar c) (hd : d.isAlphanum = false)
    (hbackslash : d ≠ '\\') : d = c := by
  have hletter : ∀ e : Char, e.isAlphanum = true → d ≠ e := by
    rintro e he rfl
    rw [hd] at he
    cases he
  unfold escapeChar at h
  split at h
  · rename_i hc
    simpa [hbackslash, hc] using h
  split at h
  · simp [hbackslash] at h
  iterate 5
    split at h
    · obtain rfl := List.mem_singleton.mp ((List.mem_cons.mp h).resolve_left hbackslash)
      cases hd
  split at h
  · have hhigh := hletter _ (digitChar_isAlphanum (c.toNat / 16) (by omega))
    have hlow := hletter _ (digitChar_isAlphanum (c.toNat % 16) (by omega))
    simp [hbackslash, hhigh, hlow, hletter 'u' (by decide), hletter '0' (by decide)] at h
  · simpa using h

/-- An escape begins with a backslash, and everything else is itself. -/
theorem exists_escapeChar (c : Char) : ∃ d t, escapeChar c = d :: t ∧ (d = c ∨ d = '\\') := by
  unfold escapeChar
  repeat' split
  all_goals simp

/-- The string literal at the front of a text: what it stands for, and what follows it. -/
def literal? : Text → Option (Text × Text)
  | '"' :: t => (literalFrom 0 t).map fun (s, n) => (s, t.drop n)
  | _ => none

/-- The characters of an escape are passed over. -/
theorem literalFrom_skip (e t : Text) :
    literalFrom e.length (e ++ t) = (literalFrom 0 t).map fun (s, n) => (s, n + e.length) := by
  induction e with
  | nil => simp
  | cons c e ih =>
    rw [List.length_cons, List.cons_append, literalFrom, ih, Option.map_map]
    rfl

theorem literalFrom_escape (h : escape? (e ++ t) = some (c, e.length)) :
    literalFrom 0 ('\\' :: (e ++ t)) =
      (literalFrom 0 t).map fun (s, n) => (c :: s, n + ('\\' :: e).length) := by
  rw [literalFrom, if_neg (by decide), if_pos rfl, h, Option.bind_some]
  change (literalFrom e.length (e ++ t)).map (fun (s, n) => (c :: s, n + 1)) = _
  rw [literalFrom_skip, Option.map_map]
  rfl

/-- A hexadecimal digit, of either case. -/
def SpellsDigit (n : Nat) (c : Char) : Prop :=
  n < 16 ∧ (c = Nat.digitChar n ∨ c = (Nat.digitChar n).toUpper)

/-- Four hexadecimal digits. -/
def SpellsUnit (n : Nat) (u : Text) : Prop :=
  ∃ a b c d, u = [a, b, c, d] ∧ SpellsDigit (n / 0x1000) a ∧ SpellsDigit (n / 0x100 % 16) b ∧
    SpellsDigit (n / 0x10 % 16) c ∧ SpellsDigit (n % 16) d

/-- The letters that stand for a character behind a backslash. -/
def letterEscapes : List (Char × Char) :=
  [('"', '"'), ('\\', '\\'), ('/', '/'), ('b', '\x08'), ('f', '\x0c'), ('n', '\n'), ('r', '\r'),
    ('t', '\t')]

/-- The ways to write a character in a literal: as it is unless it would be taken for something
else, by a letter, or by its code point. Beyond the first plane that takes two halves. -/
inductive SpellsChar : Char → Text → Prop
  | plain (hquote : c ≠ '"') (hbackslash : c ≠ '\\') (hcontrol : 0x20 ≤ c.toNat) : SpellsChar c [c]
  | letter (h : (e, c) ∈ letterEscapes) : SpellsChar c ['\\', e]
  | unit (h : SpellsUnit c.toNat u) : SpellsChar c ('\\' :: 'u' :: u)
  | halves (hplane : 0x10000 ≤ c.toNat)
      (hhigh : SpellsUnit (0xD800 + (c.toNat - 0x10000) / 0x400) high)
      (hlow : SpellsUnit (0xDC00 + (c.toNat - 0x10000) % 0x400) low) :
      SpellsChar c ('\\' :: 'u' :: high ++ '\\' :: 'u' :: low)

/-- A character that stands for itself in a literal. -/
def Unescaped (c : Char) : Prop :=
  c ≠ '"' ∧ c ≠ '\\' ∧ 0x20 ≤ c.toNat

instance (c : Char) : Decidable (Unescaped c) :=
  inferInstanceAs (Decidable (_ ∧ _))

theorem unescaped_digitChar : ∀ n < 16,
    Unescaped (Nat.digitChar n) ∧ Unescaped (Nat.digitChar n).toUpper := by
  decide

theorem SpellsDigit.unescaped (h : SpellsDigit n c) : Unescaped c := by
  obtain ⟨hn, rfl | rfl⟩ := h
  · exact (unescaped_digitChar n hn).1
  · exact (unescaped_digitChar n hn).2

theorem SpellsUnit.unescaped (h : SpellsUnit n u) : ∀ c ∈ u, Unescaped c := by
  obtain ⟨a, b, c, d, rfl, ha, hb, hc, hd⟩ := h
  simp only [List.forall_mem_cons]
  exact ⟨ha.unescaped, hb.unescaped, hc.unescaped, hd.unescaped, nofun⟩

theorem hexDigit?_digitChar : ∀ n < 16,
    hexDigit? (Nat.digitChar n) = some n ∧ hexDigit? (Nat.digitChar n).toUpper = some n := by
  decide

theorem SpellsDigit.hexDigit? (h : SpellsDigit n c) : hexDigit? c = some n := by
  obtain ⟨hn, rfl | rfl⟩ := h
  · exact (hexDigit?_digitChar n hn).1
  · exact (hexDigit?_digitChar n hn).2

theorem SpellsUnit.length (h : SpellsUnit n u) : u.length = 4 := by
  obtain ⟨a, b, c, d, rfl, -⟩ := h
  rfl

theorem SpellsUnit.hexUnit? (h : SpellsUnit n u) (t : Text) : hexUnit? (u ++ t) = some n := by
  obtain ⟨a, b, c, d, rfl, ha, hb, hc, hd⟩ := h
  have hdigits : [a, b, c, d].mapM Json.hexDigit? =
      some [n / 0x1000, n / 0x100 % 16, n / 0x10 % 16, n % 16] := by
    simp [ha.hexDigit?, hb.hexDigit?, hc.hexDigit?, hd.hexDigit?]
  have hvalue : 16 * (16 * (16 * (16 * 0 + n / 0x1000) + n / 0x100 % 16) + n / 0x10 % 16) + n % 16 =
      n := by
    omega
  change (([a, b, c, d].mapM Json.hexDigit?).map fun ds => ds.foldl (fun n d => 16 * n + d) 0) = _
  rw [hdigits]
  exact congrArg some hvalue

/-- No character is one half of another. -/
theorem not_half (c : Char) : ¬ (0xD800 ≤ c.toNat ∧ c.toNat ≤ 0xDFFF) := by
  have hvalid : c.toNat < 0xD800 ∨ 0xDFFF < c.toNat ∧ c.toNat < 0x110000 := c.valid
  omega

theorem escape?_unit (h : SpellsUnit c.toNat u) (t : Text) :
    escape? ('u' :: u ++ t) = some (c, 5) := by
  have hhalf := not_half c
  rw [List.cons_append, escape?, h.hexUnit?, Option.bind_some, if_neg (by omega),
    if_neg (by omega), Char.ofNat_toNat]

theorem escape?_halves (hplane : 0x10000 ≤ c.toNat)
    (hhigh : SpellsUnit (0xD800 + (c.toNat - 0x10000) / 0x400) high)
    (hlow : SpellsUnit (0xDC00 + (c.toNat - 0x10000) % 0x400) low) (t : Text) :
    escape? ('u' :: high ++ '\\' :: 'u' :: low ++ t) = some (c, 11) := by
  have hvalid : c.toNat < 0xD800 ∨ 0xDFFF < c.toNat ∧ c.toNat < 0x110000 := c.valid
  have hbehind : Text.after? ['\\', 'u'] ((high ++ ('\\' :: 'u' :: low ++ t)).drop 4) =
      some (low ++ t) := by
    rw [List.drop_left' hhigh.length]
    rfl
  have hcode : 0x10000 + (0xD800 + (c.toNat - 0x10000) / 0x400 - 0xD800) * 0x400 +
      (0xDC00 + (c.toNat - 0x10000) % 0x400 - 0xDC00) = c.toNat := by
    omega
  rw [List.append_assoc, List.cons_append, escape?, hhigh.hexUnit?, Option.bind_some,
    if_neg (by omega), if_pos (by omega), hbehind]
  dsimp only
  rw [hlow.hexUnit?, Option.bind_some, if_pos (by omega), hcode, Char.ofNat_toNat]

theorem escape?_letter (h : (e, c) ∈ letterEscapes) (t : Text) :
    escape? (e :: t) = some (c, 1) := by
  simp only [letterEscapes, List.mem_cons, Prod.mk.injEq, List.not_mem_nil, or_false] at h
  rcases h with ⟨rfl, rfl⟩ | ⟨rfl, rfl⟩ | ⟨rfl, rfl⟩ | ⟨rfl, rfl⟩ | ⟨rfl, rfl⟩ | ⟨rfl, rfl⟩ |
    ⟨rfl, rfl⟩ | ⟨rfl, rfl⟩
  all_goals rfl

/-- One character is read back from any of its spellings. -/
theorem SpellsChar.literalFrom (h : SpellsChar c s) (t : Text) :
    literalFrom 0 (s ++ t) = (literalFrom 0 t).map fun (r, n) => (c :: r, n + s.length) := by
  cases h with
  | plain hquote hbackslash hcontrol =>
    rw [List.singleton_append, Json.literalFrom, if_neg hquote, if_neg hbackslash,
      if_neg (by omega)]
    rfl
  | letter h => exact literalFrom_escape (escape?_letter h t)
  | unit h =>
    refine literalFrom_escape ((escape?_unit h t).trans ?_)
    rw [List.length_cons, h.length]
  | halves hplane hhigh hlow =>
    refine literalFrom_escape ((escape?_halves hplane hhigh hlow t).trans ?_)
    simp [hhigh.length, hlow.length]

/-- The spellings of a text between the quotes of a literal. -/
def SpellsText (t s : Text) : Prop :=
  ∃ parts, List.Forall₂ SpellsChar t parts ∧ s = parts.flatten

theorem SpellsText.literalFrom (h : SpellsText t s) (rest : Text) :
    literalFrom 0 (s ++ '"' :: rest) = some (t, s.length + 1) := by
  obtain ⟨parts, hparts, rfl⟩ := h
  induction hparts with
  | nil => rfl
  | cons hchar _ ih =>
    rw [List.flatten_cons, List.append_assoc, hchar.literalFrom, ih, Option.map_some]
    simp only [List.length_append]
    congr 2
    omega

theorem digitChar_mod (n : Nat) : SpellsDigit (n % 16) (Nat.digitChar (n % 16)) :=
  ⟨Nat.mod_lt n (by decide), .inl rfl⟩

/-- The way in which a character is quoted is one of its spellings. -/
theorem spellsChar_escapeChar (c : Char) : SpellsChar c (escapeChar c) := by
  unfold escapeChar
  iterate 7
    split
    · rename_i hc
      subst hc
      exact .letter (by decide)
  split
  · rename_i hcontrol
    refine .unit ⟨_, _, _, _, rfl, ?_, ?_, ?_, digitChar_mod c.toNat⟩
    · rw [Nat.div_eq_of_lt (by omega)]
      exact ⟨by decide, .inl rfl⟩
    · rw [Nat.div_eq_of_lt (by omega)]
      exact ⟨by decide, .inl rfl⟩
    · rw [Nat.mod_eq_of_lt (by omega)]
      exact ⟨by omega, .inl rfl⟩
  · rename_i hquote hbackslash _ _ _ _ _ hcontrol
    exact .plain hquote hbackslash (by omega)

theorem spellsText_quoted (t : Text) : SpellsText t (t.flatMap escapeChar) := by
  refine ⟨t.map escapeChar, ?_, List.flatMap_def⟩
  induction t with
  | nil => exact .nil
  | cons c t ih => exact .cons (spellsChar_escapeChar c) ih

/-- A quoted text is a literal that stands for it. -/
theorem literal?_quote (v rest : Text) : literal? (quote v ++ rest) = some (v, rest) := by
  have hquote : quote v ++ rest = '"' :: (v.flatMap escapeChar ++ '"' :: rest) := by
    simp only [quote, List.cons_append, List.append_assoc, List.nil_append]
  rw [hquote, literal?, (spellsText_quoted v).literalFrom, Option.map_some]
  simp only [List.drop_length_add_append, List.drop_one, List.tail_cons]

end GadgetBuild.Json
