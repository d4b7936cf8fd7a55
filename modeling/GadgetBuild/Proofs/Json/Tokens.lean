import Mathlib.Algebra.GroupWithZero.Nat
import Mathlib.Algebra.Ring.Int.Defs
import Mathlib.Data.List.Chain
import GadgetBuild.Json.Printer
import GadgetBuild.Json.Token
import GadgetBuild.Proofs.Json.Literals

/-!
The spellings of tokens. A text of tokens with any white space around them is read as these tokens.
Only a number asks what follows it: it is read as far as it may go on.
-/

namespace GadgetBuild.Json

/-- White space, or nothing. -/
def Blank (w : Text) : Prop :=
  ∀ c ∈ w, isSpace c = true

instance (w : Text) : Decidable (Blank w) :=
  List.decidableBAll (isSpace · = true) w

/-- The ways to write a token. An integer has 64 bits and is written in plain digits. -/
inductive Spells : Token → Text → Prop
  | openList : Spells .openList ['[']
  | closeList : Spells .closeList [']']
  | openObject : Spells .openObject ['\x7b']
  | closeObject : Spells .closeObject ['\x7d']
  | comma : Spells .comma [',']
  | colon : Spells .colon [':']
  | null : Spells .null "null".toList
  | bool (b : Bool) : Spells (.bool b) (boolText b)
  | integer (hlow : -2 ^ 63 ≤ n) (hhigh : n < 2 ^ 64) : Spells (.number (.integer n)) (integerText n)
  | text (h : SpellsText t s) : Spells (.text t) ('"' :: s ++ ['"'])

/-- A text of tokens, with white space before each and behind the last. -/
inductive Spelled : List Token → Text → Prop
  | nil (h : Blank w) : Spelled [] w
  | cons (hw : Blank w) (hs : Spells token s) (h : Spelled ts t) :
    Spelled (token :: ts) (w ++ (s ++ t))

/-- No number goes on with what follows. -/
def Ends (t : Text) : Prop :=
  ∀ c ∈ t.head?, isDigit c = false ∧ c ≠ '.' ∧ c ≠ 'e' ∧ c ≠ 'E'

theorem isDigit_of_mem_ofNat (h : c ∈ Text.ofNat n) : isDigit c = true := by
  have hdigit := Text.isDigit_of_mem_ofNat h
  unfold Char.isDigit at hdigit
  rw [Bool.and_eq_true, decide_eq_true_iff, decide_eq_true_iff] at hdigit
  rw [isDigit, Bool.and_eq_true, decide_eq_true_iff, decide_eq_true_iff]
  exact hdigit

theorem ofNat_ne_nil (n : Nat) : Text.ofNat n ≠ [] :=
  Nat.toDigits_ne_nil

/-- Only zero begins with a zero. -/
theorem head_ofNat (h : 0 < n) : (Text.ofNat n).head? ≠ some '0' := by
  induction n using Nat.strongRecOn with
  | ind n ih =>
    unfold Text.ofNat at ih ⊢
    by_cases hn : n < 10
    · have hdigit : ∀ m < 10, 0 < m → [Nat.digitChar m].head? ≠ some '0' := by decide
      rw [Nat.toDigits_of_lt_base hn]
      exact hdigit n hn h
    · rw [Nat.toDigits_of_base_le (by decide) (by omega),
        List.head?_append_of_ne_nil _ Nat.toDigits_ne_nil]
      exact ih (n / 10) (by omega) (by omega)

theorem digits_ofNat (n : Nat) (h : Ends rest) : digits (Text.ofNat n ++ rest) = Text.ofNat n := by
  have hrest : rest.takeWhile isDigit = [] := by
    cases rest with
    | nil => rfl
    | cons c rest => exact List.takeWhile_cons_of_neg (by simp [(h c rfl).1])
  rw [digits, List.takeWhile_append_of_pos fun c => isDigit_of_mem_ofNat, hrest, List.append_nil]

theorem le_ofDigitChars (ds : List Char) (n : Nat) : n ≤ Nat.ofDigitChars 10 ds n := by
  induction ds generalizing n with
  | nil => exact Nat.le_refl n
  | cons c ds ih =>
    rw [Nat.ofDigitChars_cons]
    exact Nat.le_trans (by omega) (ih _)

/-- All digits of a number that fits are taken up. -/
theorem absorb_eq {ds : List Char} (h : Nat.ofDigitChars 10 ds n ≤ greatestInteger) :
    absorb n ds = (Nat.ofDigitChars 10 ds n, 0) := by
  induction ds generalizing n with
  | nil => rfl
  | cons c ds ih =>
    rw [Nat.ofDigitChars_cons] at h ⊢
    have hfits : 10 * n + digitValue c ≤ greatestInteger := Nat.le_trans (le_ofDigitChars ds _) h
    rw [absorb, if_pos hfits]
    exact ih h

theorem absorb_ofNat (h : n < 2 ^ 64) : absorb 0 (Text.ofNat n) = (n, 0) := by
  have hvalue : Nat.ofDigitChars 10 (Text.ofNat n) 0 = n := Nat.ofDigitChars_ten_toDigits
  have hgreatest : greatestInteger = 2 ^ 64 - 1 := rfl
  rw [absorb_eq (by omega), hvalue]

theorem fraction?_of_ends (h : Ends rest) : fraction? rest = some (none, 0) := by
  unfold fraction?
  split
  · exact absurd rfl (h _ rfl).2.1
  · rfl

theorem power?_of_ends (h : Ends rest) : power? rest = some (none, 0) := by
  cases rest with
  | nil => rfl
  | cons c rest =>
    obtain ⟨-, -, he, hE⟩ := h c rfl
    exact if_neg (not_or.mpr ⟨he, hE⟩)

theorem value?_integer {negative : Bool} {m : Nat} (h : m < 2 ^ 64)
    (hnegative : negative = true → 1 ≤ m ∧ m ≤ 2 ^ 63) :
    Numeral.value? ⟨negative, Text.ofNat m, none, none⟩ =
      some (.integer (if negative then -m else m)) := by
  have hkept : !negative ∨ 1 ≤ m ∧ m ≤ Decimal.twoTo 63 := by
    cases negative with
    | false => exact .inl rfl
    | true => exact .inr (hnegative rfl)
  unfold Numeral.value?
  rw [absorb_ofNat h]
  exact if_pos ⟨rfl, rfl, rfl, hkept⟩

/-- The digits of a number are read where nothing goes on with it, behind a sign or not. -/
theorem number?_digits (negative : Bool) {m : Nat} (h : m < 2 ^ 64)
    (hnegative : negative = true → 1 ≤ m ∧ m ≤ 2 ^ 63) (hrest : Ends rest) :
    number? ((if negative then ['-'] else []) ++ Text.ofNat m ++ rest) =
      some (.integer (if negative then -m else m),
        ((if negative then ['-'] else []) ++ Text.ofNat m).length) := by
  obtain ⟨d, ds, hds⟩ := List.exists_cons_of_ne_nil (ofNat_ne_nil m)
  have hdash : d ≠ '-' := by
    rintro rfl
    exact absurd (isDigit_of_mem_ofNat (hds ▸ List.mem_cons_self)) (by decide)
  have hsign : (if ((if negative then ['-'] else []) ++ Text.ofNat m ++ rest).head? = some '-'
      then 1 else 0) = (if negative then ['-'] else []).length := by
    cases negative with
    | false => rw [hds]; exact if_neg (by simpa using hdash)
    | true => rfl
  have hbody : ((if negative then ['-'] else []) ++ Text.ofNat m ++ rest).drop
      (if negative then ['-'] else []).length = Text.ofNat m ++ rest := by
    rw [List.append_assoc, List.drop_left]
  have hzero : ¬ (Text.ofNat m = [] ∨
      (Text.ofNat m).head? = some '0' ∧ 1 < (Text.ofNat m).length) := by
    rintro (hnil | ⟨hhead, hlength⟩)
    · exact ofNat_ne_nil m hnil
    · cases m with
      | zero => exact absurd hlength (by decide)
      | succ m => exact head_ofNat (Nat.succ_pos m) hhead
  have hone : decide ((if negative then ['-'] else []).length = 1) = negative := by
    cases negative <;> rfl
  unfold number?
  simp only [hsign, hbody, digits_ofNat m hrest]
  rw [if_neg hzero, List.drop_left, fraction?_of_ends hrest, Option.bind_some, List.drop_zero,
    power?_of_ends hrest, Option.bind_some, hone, value?_integer h hnegative, Option.map_some,
    List.length_append]
  rfl

theorem number?_integerText (hlow : -2 ^ 63 ≤ n) (hhigh : n < 2 ^ 64) (hrest : Ends rest) :
    number? (integerText n ++ rest) = some (.integer n, (integerText n).length) := by
  unfold integerText
  split
  · rename_i hneg
    have hread := number?_digits true (m := n.natAbs) (by omega)
      (fun _ => ⟨by omega, by omega⟩) hrest
    rw [if_pos rfl, if_pos rfl] at hread
    rw [show -((n.natAbs : Nat) : Int) = n by omega] at hread
    exact hread
  · rename_i hneg
    have hread := number?_digits false (m := n.natAbs) (by omega) nofun hrest
    rw [if_neg nofun, if_neg nofun] at hread
    rw [show ((n.natAbs : Nat) : Int) = n by omega] at hread
    exact hread

def Token.isNumber : Token → Bool
  | .number _ => true
  | _ => false

theorem tokensFrom_skip (s t : Text) : tokensFrom s.length (s ++ t) = tokensFrom 0 t := by
  induction s with
  | nil => rfl
  | cons c s ih => rw [List.length_cons, List.cons_append, tokensFrom, ih]

theorem tokensFrom_blank (h : Blank w) (t : Text) : tokensFrom 0 (w ++ t) = tokensFrom 0 t := by
  induction w with
  | nil => rfl
  | cons c w ih =>
    rw [List.cons_append, tokensFrom, if_pos (h c List.mem_cons_self),
      ih fun d hd => h d (List.mem_cons_of_mem c hd)]

/-- Numbers begin with a digit or a sign. -/
def BeginsNumber (c : Char) : Prop :=
  isDigit c = true ∨ c = '-'

instance (c : Char) : Decidable (BeginsNumber c) :=
  inferInstanceAs (Decidable (_ ∨ _))

theorem BeginsNumber.ne (h : BeginsNumber c) (hd : ¬ BeginsNumber d) : c ≠ d := by
  rintro rfl
  exact hd h

theorem BeginsNumber.notMem {t : Text} (h : BeginsNumber c)
    (ht : t.all (¬ BeginsNumber ·) = true) : c ∉ t := by
  intro hmem
  have hnot := List.all_eq_true.mp ht c hmem
  exact of_decide_eq_true hnot h

theorem BeginsNumber.not_space (h : BeginsNumber c) : isSpace c = false := by
  simp [isSpace, h.ne (d := ' ') (by decide), h.ne (d := '\t') (by decide),
    h.ne (d := '\n') (by decide), h.ne (d := '\r') (by decide)]

/-- A text that begins like a number is read as one. -/
theorem BeginsNumber.token? (h : BeginsNumber c) (t : Text) :
    token? (c :: t) = (number? (c :: t)).map fun (v, n) => (.number v, n) := by
  unfold Json.token?
  split <;> rename_i he
  all_goals first
    | rfl
    | exact (h.ne (by decide) (List.cons.inj he).1).elim
    | cases he

theorem head_integerText (n : Int) :
    ∃ c t, integerText n = c :: t ∧ BeginsNumber c := by
  unfold integerText
  split
  · exact ⟨_, _, rfl, .inr rfl⟩
  · obtain ⟨c, t, ht⟩ := List.exists_cons_of_ne_nil (ofNat_ne_nil n.natAbs)
    exact ⟨c, t, ht, .inl (isDigit_of_mem_ofNat (ht ▸ List.mem_cons_self))⟩

/-- A token is read from any of its spellings, a number if it ends there. -/
theorem Spells.token? (h : Spells token s) (hrest : token.isNumber = true → Ends rest) :
    token? (s ++ rest) = some (token, s.length) := by
  cases h with
  | openList | closeList | openObject | closeObject | comma | colon => rfl
  | null => rfl
  | bool b => cases b <;> rfl
  | integer hlow hhigh =>
    obtain ⟨c, t, ht, hc⟩ := head_integerText _
    have hread := number?_integerText hlow hhigh (hrest rfl)
    rw [ht] at hread ⊢
    rw [List.cons_append] at hread ⊢
    rw [hc.token?, hread, Option.map_some]
  | @text t s h =>
    have hquote : '"' :: s ++ ['"'] ++ rest = '"' :: (s ++ '"' :: rest) := by simp
    rw [hquote]
    change (literalFrom 0 _).map _ = _
    rw [h.literalFrom, Option.map_some]
    simp

theorem Spells.head (h : Spells token s) : ∃ c t, s = c :: t ∧ isSpace c = false := by
  cases h with
  | openList | closeList | openObject | closeObject | comma | colon => exact ⟨_, _, rfl, rfl⟩
  | null => exact ⟨_, _, rfl, rfl⟩
  | bool b => cases b <;> exact ⟨_, _, rfl, rfl⟩
  | integer hlow hhigh =>
    obtain ⟨c, t, ht, hc⟩ := head_integerText _
    exact ⟨c, t, ht, hc.not_space⟩
  | text h => exact ⟨_, _, rfl, rfl⟩

/-- The token at the front of a text. -/
theorem Spells.tokensFrom (h : Spells token s) (hrest : token.isNumber = true → Ends rest) :
    tokensFrom 0 (s ++ rest) = token :: tokensFrom 0 rest := by
  obtain ⟨c, t, rfl, hc⟩ := h.head
  have hread := h.token? hrest
  rw [List.cons_append] at hread ⊢
  rw [Json.tokensFrom, if_neg (by simp [hc]), hread]
  exact congrArg _ (tokensFrom_skip t rest)

/-- Behind a number only these may stand. -/
def Token.delimits : Token → Bool
  | .comma | .closeList | .closeObject => true
  | _ => false

/-- Every number among the tokens has a delimiter behind it, but for one at the end. -/
def Loose (ts : List Token) : Prop :=
  ts.IsChain fun a b => a.isNumber = true → b.delimits = true

theorem Loose.append (hs : Loose ss) (ht : Loose ts)
    (h : (∀ t ∈ ts.head?, t.delimits = true) ∨ ∀ s ∈ ss.getLast?, s.isNumber = false) :
    Loose (ss ++ ts) := by
  refine List.IsChain.append hs ht fun a ha b hb hnumber => ?_
  rcases h with h | h
  · exact h b hb
  · rw [h a ha] at hnumber
    cases hnumber

theorem ends_of_blank (h : Blank w) (ht : Ends t) : Ends (w ++ t) := by
  cases w with
  | nil => exact ht
  | cons c w =>
    rintro d ⟨⟩
    have hspace := h c List.mem_cons_self
    have hno : ∀ d, isSpace d = false → c ≠ d := by
      rintro d hd rfl
      rw [hd] at hspace
      cases hspace
    refine ⟨?_, hno _ (by decide), hno _ (by decide), hno _ (by decide)⟩
    cases hdigit : isDigit c with
    | false => rfl
    | true =>
      rw [BeginsNumber.not_space (.inl hdigit)] at hspace
      cases hspace

theorem ends_of_delimits (h : Spells token s) (hdelimits : token.delimits = true) (t : Text) :
    Ends (s ++ t) := by
  cases h with
  | closeList | closeObject | comma =>
    rintro c ⟨⟩
    decide
  | _ => cases hdelimits

theorem Spelled.ends (h : Spelled ts t) (hdelimits : ∀ token ∈ ts.head?, token.delimits = true)
    (hrest : ts = [] → Ends rest) : Ends (t ++ rest) := by
  cases h with
  | nil hw => exact ends_of_blank hw (hrest rfl)
  | cons hw hs _ =>
    rw [List.append_assoc, List.append_assoc]
    exact ends_of_blank hw (ends_of_delimits hs (hdelimits _ rfl) _)

/-- A text of tokens is read as these tokens, whatever follows, unless a number stands at its end. -/
theorem Spelled.tokens_append (h : Spelled ts t) (hloose : Loose ts)
    (hlast : ∀ token ∈ ts.getLast?, token.isNumber = true → Ends rest) :
    tokens (t ++ rest) = ts ++ tokens rest := by
  induction h with
  | nil hw => exact tokensFrom_blank hw rest
  | @cons w token s ts t hw hs h ih =>
    have hnumber : token.isNumber = true → Ends (t ++ rest) := by
      intro hnumber
      refine h.ends (fun b hb => ?_) fun hnil => ?_
      · exact hloose.rel_head? hb hnumber
      · subst hnil
        exact hlast token rfl hnumber
    have hread := ih hloose.tail fun b hb => hlast b (by
      rw [List.getLast?_cons, hb]
      rfl)
    rw [List.append_assoc, List.append_assoc, tokens, tokensFrom_blank hw, hs.tokensFrom hnumber]
    exact congrArg _ hread

end GadgetBuild.Json
