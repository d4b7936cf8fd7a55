import Mathlib.Order.Basic
import GadgetBuild.SourceMap.Basic

/-!
Source maps read back from their written form. Links at increasing places of the generated text are
read as they were written.
-/

namespace GadgetBuild.SourceMap

namespace Position

/-- Places by line and then by column. -/
instance : Preorder Position where
  le p q := p.line < q.line ∨ p.line = q.line ∧ p.column ≤ q.column
  lt p q := p.line < q.line ∨ p.line = q.line ∧ p.column < q.column
  le_refl p := Or.inr ⟨rfl, Nat.le_refl _⟩
  le_trans p q r hpq hqr := by omega
  lt_iff_le_not_ge p q := by omega

theorem le_iff {p q : Position} :
    p ≤ q ↔ p.line < q.line ∨ p.line = q.line ∧ p.column ≤ q.column := Iff.rfl

theorem lt_iff {p q : Position} :
    p < q ↔ p.line < q.line ∨ p.line = q.line ∧ p.column < q.column := Iff.rfl

instance (p q : Position) : Decidable (p ≤ q) :=
  decidable_of_iff _ le_iff.symm

instance (p q : Position) : Decidable (p < q) :=
  decidable_of_iff _ lt_iff.symm

theorem units_pos (c : Char) : 0 < units c := by
  unfold units
  split <;> omega

theorem lt_step (p : Position) (c : Char) : p < p.step c := by
  have := units_pos c
  unfold step
  rw [lt_iff]
  split
  · exact Or.inl (Nat.lt_succ_self p.line)
  · exact Or.inr ⟨rfl, Nat.lt_add_of_pos_right this⟩

theorem le_advance (p : Position) (t : Text) : p ≤ p.advance t := by
  induction t generalizing p with
  | nil => exact le_refl p
  | cons c t ih => exact (p.lt_step c).le.trans (ih _)

end Position

/-- What a source map says of a place of the generated text: the file and the place in it that it
comes from. -/
structure Token where
  generated : Position
  file : Nat
  source : Position
  deriving DecidableEq, Repr

/-- The six bits of a digit. -/
def digitValue? (c : Char) : Option Nat :=
  if 'A' ≤ c ∧ c ≤ 'Z' then some (c.toNat - 'A'.toNat)
  else if 'a' ≤ c ∧ c ≤ 'z' then some (c.toNat - 'a'.toNat + 26)
  else if '0' ≤ c ∧ c ≤ '9' then some (c.toNat - '0'.toNat + 52)
  else if c = '+' then some 62
  else if c = '/' then some 63
  else none

/-- The numbers that digits make, each with its lowest digit first. A digit of 32 or more is
continued by the number behind it. -/
def numbers? : Text → Option (List Nat)
  | [] => some []
  | c :: t => do
    let digit ← digitValue? c
    let numbers ← numbers? t
    if digit < 32 then return digit :: numbers
    match numbers with
    | [] => none
    | n :: numbers => return (digit - 32 + 32 * n) :: numbers

/-- The sign is the lowest bit. -/
def signed (n : Nat) : Int :=
  if n % 2 = 0 then (n / 2 : Nat) else -(n / 2 : Nat)

def shift (old n : Nat) : Option Nat :=
  ((old : Int) + signed n).toNat?

/-- The token on a generated line that is given by its differences from the one before. The column
starts anew on each line. -/
def Token.behind (before : Token) (line : Nat) : List Nat → Option Token
  | [column, file, sourceLine, sourceColumn] => do
    let start := if before.generated.line = line then before.generated.column else 0
    let generated := ⟨line, ← shift start column⟩
    let source := ⟨← shift before.source.line sourceLine, ← shift before.source.column sourceColumn⟩
    return ⟨generated, ← shift before.file file, source⟩
  | _ => none

/-- The entries of a written map with their lines. Semicolons end lines, and commas stand between
the entries of one; `word` is what was read of the entry. -/
def entriesFrom (line : Nat) (word : Text) : Text → List (Nat × Text)
  | [] => [(line, word)]
  | c :: t =>
    if c = ';' then (line, word) :: entriesFrom (line + 1) [] t
    else if c = ',' then (line, word) :: entriesFrom line [] t
    else entriesFrom line (word ++ [c]) t

def entries (mappings : Text) : List (Nat × Text) :=
  (entriesFrom 0 [] mappings).filter (·.2 ≠ [])

def tokensBehind (before : Token) : List (Nat × Text) → Option (List Token)
  | [] => some []
  | (line, entry) :: rest => do
    let token ← before.behind line (← numbers? entry)
    return token :: (← tokensBehind token rest)

/-- The tokens of a written map, or none if it is not well formed. -/
def decode (mappings : Text) : Option (List Token) :=
  tokensBehind ⟨.zero, 0, .zero⟩ (entries mappings)

def Link.token (link : Link) : Token :=
  ⟨link.generated, 0, link.source⟩

/-- The last token that is not behind a place. -/
def tokenAt (tokens : List Token) (p : Position) : Option Token :=
  (tokens.filter (·.generated ≤ p)).getLast?

/-- Counted from the token on its line, the place `p` of the generated text comes from `q`. -/
structure Token.Leads (t : Token) (p q : Position) : Prop where
  generated_line : t.generated.line = p.line
  generated_column : t.generated.column ≤ p.column
  source_line : t.source.line = q.line
  source_column : t.source.column + (p.column - t.generated.column) = q.column

/-- The tokens say that the place `p` comes from `q`. -/
def Traces (tokens : List Token) (p q : Position) : Prop :=
  ∃ t, tokenAt tokens p = some t ∧ t.Leads p q

theorem tokenAt_append {tokens next : List Token} (htokens : ∀ t ∈ tokens, t.generated ≤ p)
    (hnext : ∀ t ∈ next, ¬ t.generated ≤ p) : tokenAt (tokens ++ next) p = tokens.getLast? := by
  rw [tokenAt, List.filter_append,
    List.filter_eq_self.mpr fun t ht => decide_eq_true (htokens t ht),
    List.filter_eq_nil_iff.mpr fun t ht => by simpa using hnext t ht, List.append_nil]

theorem Token.Leads.self (link : Link) : link.token.Leads link.generated link.source :=
  ⟨rfl, Nat.le_refl _, rfl, by simp [Link.token]⟩

/-- Both places move on alike. -/
theorem Token.Leads.step {t : Token} (h : t.Leads p q) (hc : c ≠ '\n') :
    t.Leads (p.step c) (q.step c) := by
  obtain ⟨hline, hcolumn, hsource, hsum⟩ := h
  unfold Position.step
  rw [if_neg hc, if_neg hc]
  refine ⟨hline, by dsimp only; omega, hsource, ?_⟩
  dsimp only
  omega

theorem digitValue?_digitChar : ∀ n < 64, digitValue? (digitChar n) = some n := by
  decide

theorem numbers?_quantityDigits (n : Nat) (t : Text) :
    numbers? (quantityDigits n ++ t) = (numbers? t).map (n :: ·) := by
  fun_induction quantityDigits n with
  | case1 n h =>
    rw [List.singleton_append, numbers?, digitValue?_digitChar n (by omega)]
    cases numbers? t <;> simp [h]
  | case2 n h ih =>
    rw [List.cons_append, numbers?, digitValue?_digitChar _ (by omega), ih]
    cases numbers? t <;> simp [Nat.mod_add_div]

/-- The written form of an integer, as a number. -/
def unsigned (d : Int) : Nat :=
  if d < 0 then 2 * d.natAbs + 1 else 2 * d.natAbs

theorem signed_unsigned (d : Int) : signed (unsigned d) = d := by
  unfold signed unsigned
  split <;> split <;> omega

theorem shift_unsigned (new old : Nat) : shift old (unsigned ((new : Int) - old)) = some new := by
  have hsum : (old : Int) + (new - old) = new := by omega
  rw [shift, signed_unsigned, hsum]
  rfl

/-- A link's differences read back. -/
theorem behind_since (link before : Link) :
    (numbers? (link.since before)).bind (before.token.behind link.generated.line) =
      some link.token := by
  have hread : ∀ (d : Int) (t : Text), numbers? (quantity d ++ t) =
      (numbers? t).map (unsigned d :: ·) := fun d t => numbers?_quantityDigits (unsigned d) t
  have hlast : ∀ d : Int, numbers? (quantity d) = some [unsigned d] := by
    intro d
    have := hread d []
    rwa [List.append_nil] at this
  have hfile : shift 0 (unsigned 0) = some 0 := rfl
  simp only [Link.since, difference, List.append_assoc, hread, hlast, Option.map_some,
    Option.bind_some, Token.behind, Link.token, shift_unsigned, hfile]
  rfl

theorem digitValue?_of_mem_quantityDigits (h : c ∈ quantityDigits n) : digitValue? c ≠ none := by
  fun_induction quantityDigits n with
  | case1 n hn =>
    rw [List.mem_singleton.mp h, digitValue?_digitChar n (by omega)]
    exact Option.some_ne_none n
  | case2 n hn ih =>
    rcases List.mem_cons.mp h with rfl | h
    · rw [digitValue?_digitChar _ (by omega)]
      exact Option.some_ne_none _
    · exact ih h

/-- Entries contain no separators. -/
theorem not_mem_since {link before : Link} (h : c ∈ link.since before) : c ≠ ';' ∧ c ≠ ',' := by
  have hdigit : digitValue? c ≠ none := by
    simp only [Link.since, List.mem_append] at h
    rcases h with ((h | h) | h) | h <;> exact digitValue?_of_mem_quantityDigits h
  constructor <;> rintro rfl <;> exact hdigit rfl

theorem quantityDigits_ne_nil (n : Nat) : quantityDigits n ≠ [] := by
  rw [quantityDigits]
  split <;> simp

theorem since_ne_nil (link before : Link) : link.since before ≠ [] := by
  simp [Link.since, quantity, quantityDigits_ne_nil]

/-- What is read up to the next separator. -/
theorem entriesFrom_append {entry : Text} (h : ∀ c ∈ entry, c ≠ ';' ∧ c ≠ ',') (line : Nat)
    (word t : Text) : entriesFrom line word (entry ++ t) = entriesFrom line (word ++ entry) t := by
  induction entry generalizing word with
  | nil => rw [List.nil_append, List.append_nil]
  | cons c entry ih =>
    obtain ⟨hsemicolon, hcomma⟩ := h c (by simp)
    rw [List.cons_append, entriesFrom, if_neg hsemicolon, if_neg hcomma,
      ih fun d hd => h d (by simp [hd]), List.append_assoc]
    rfl

/-- Lines without entries. -/
theorem filter_entriesFrom_replicate (line n : Nat) (t : Text) :
    (entriesFrom line [] (List.replicate n ';' ++ t)).filter (·.2 ≠ []) =
      (entriesFrom (line + n) [] t).filter (·.2 ≠ []) := by
  induction n generalizing line with
  | zero => rfl
  | succ n ih =>
    rw [List.replicate_succ, List.cons_append, entriesFrom, if_pos rfl,
      List.filter_cons_of_neg (by simp), ih]
    congr 2
    omega

/-- The entries of the links behind another one. -/
def entriesBehind (before : Link) : List Link → List (Nat × Text)
  | [] => []
  | link :: links => (link.generated.line, link.since before) :: entriesBehind link links

theorem entriesFrom_encodeBehind {links : List Link}
    (h : (before :: links).Pairwise fun a b => a.generated < b.generated) {word : Text}
    (hword : word ≠ []) :
    (entriesFrom before.generated.line word (encodeBehind before links)).filter (·.2 ≠ []) =
      (before.generated.line, word) :: entriesBehind before links := by
  induction links generalizing before word with
  | nil => simp [encodeBehind, entriesFrom, entriesBehind, hword]
  | cons link links ih =>
    obtain ⟨hfirst, hrest⟩ := List.pairwise_cons.mp h
    have hlt := hfirst link (by simp)
    have hne : link ≠ before := by
      rintro rfl
      exact lt_irrefl _ hlt
    have hentry := ih hrest (since_ne_nil link before)
    have hread : ∀ line, entriesFrom line [] (link.since before ++ encodeBehind link links) =
        entriesFrom line (link.since before) (encodeBehind link links) := fun line =>
      entriesFrom_append (fun c => not_mem_since) line [] _
    have hkept : ∀ l : List (Nat × Text), ((before.generated.line, word) :: l).filter (·.2 ≠ []) =
        (before.generated.line, word) :: l.filter (·.2 ≠ []) := fun l =>
      List.filter_cons_of_pos (by simpa using hword)
    rw [encodeBehind, if_neg hne, entriesBehind, ← hentry, Link.gap, List.append_assoc]
    by_cases hline : link.generated.line = before.generated.line
    · rw [if_pos hline, List.singleton_append, entriesFrom, if_neg (by decide), if_pos rfl, hread,
        hkept, hline]
    · obtain ⟨n, hn⟩ := Nat.exists_eq_add_of_lt (hlt.resolve_right fun hs => hline hs.1.symm)
      have hbreaks : link.generated.line - before.generated.line = n + 1 := by omega
      have hstart : before.generated.line + 1 + n = link.generated.line := by omega
      rw [if_neg hline, hbreaks, List.replicate_succ, List.cons_append, entriesFrom, if_pos rfl,
        hkept, filter_entriesFrom_replicate, hstart, hread]

/-- The tokens of links behind another one. -/
theorem tokensBehind_entriesBehind (before : Link) (links : List Link) :
    tokensBehind before.token (entriesBehind before links) = some (links.map Link.token) := by
  induction links generalizing before with
  | nil => rfl
  | cons link links ih =>
    obtain ⟨numbers, hnumbers, htoken⟩ := Option.bind_eq_some_iff.mp (behind_since link before)
    rw [entriesBehind, tokensBehind, hnumbers]
    simp [htoken, ih link]

/-- Links at increasing places are read as they were written. -/
theorem decode_encode {links : List Link}
    (h : links.Pairwise fun a b => a.generated < b.generated) :
    decode (encode links) = some (links.map Link.token) := by
  cases links with
  | nil => rfl
  | cons link links =>
    have hentries : entries (encode (link :: links)) =
        entriesBehind ⟨.zero, .zero⟩ (link :: links) := by
      rw [entries, encode, List.append_assoc, filter_entriesFrom_replicate, Nat.zero_add,
        entriesFrom_append fun c => not_mem_since, List.nil_append,
        entriesFrom_encodeBehind h (since_ne_nil _ _), entriesBehind]
    rw [decode, hentries]
    exact tokensBehind_entriesBehind ⟨.zero, .zero⟩ (link :: links)

end GadgetBuild.SourceMap
