import GadgetBuild.Proofs.Json.Documents
import GadgetBuild.Proofs.Json.Splicing

/-!
The layout of printed values. A reader that tells literals from what is around them finds line
feeds, tabs and spaces where they lay the text out and nowhere else. Without them the text is the
compact one, and the tabs at the beginning of a line are as many as the containers around it.
-/

namespace GadgetBuild.Json

/-- Where a reader of a text stands. -/
inductive Place where
  /-- At the beginning of a line, behind this many tabs. -/
  | line (tabs : Nat)
  | code
  /-- Behind a colon, which outside of literals is that of a key. -/
  | colon
  | literal
  /-- Behind a backslash in a literal. -/
  | escape

def Place.inLiteral : Place → Bool
  | .literal | .escape => true
  | _ => false

/-- The place behind a character. -/
def Place.step : Place → Char → Place
  | .escape, _ => .literal
  | .literal, c => if c = '"' then .code else if c = '\\' then .escape else .literal
  | .line tabs, '\t' => .line (tabs + 1)
  | _, c => if c = '\n' then .line 0 else if c = ':' then .colon else
    if c = '"' then .literal else .code

/-- What only lays a text out: line feeds, the tabs behind them and the space behind a colon. -/
def Place.isLayout : Place → Char → Bool
  | .literal, _ | .escape, _ => false
  | .line _, '\t' | .colon, ' ' => true
  | _, c => c = '\n'

/-- What stays of a text without its layout. -/
def stripped : Place → Text → Text
  | _, [] => []
  | p, c :: t => if p.isLayout c then stripped (p.step c) t else c :: stripped (p.step c) t

def opens (c : Char) : Bool :=
  c = '[' || c = '\x7b'

def closes (c : Char) : Bool :=
  c = ']' || c = '\x7d'

/-- A place, and how many containers are open there. -/
structure Cursor where
  place : Place
  depth : Nat

namespace Cursor

def start : Cursor := ⟨.line 0, 0⟩

def step (s : Cursor) (c : Char) : Cursor where
  place := s.place.step c
  depth :=
    if s.place.inLiteral then s.depth
    else if opens c then s.depth + 1
    else if closes c then s.depth - 1
    else s.depth

def run (s : Cursor) (t : Text) : Cursor :=
  t.foldl step s

theorem run_append (s : Cursor) (t u : Text) : s.run (t ++ u) = (s.run t).run u :=
  List.foldl_append

end Cursor

/-- The number of containers around a line: those that are open in front of it, but for the one that
it closes at once. -/
def nesting (before line : Text) : Nat :=
  (Cursor.start.run before).depth -
    if (line.dropWhile (· = '\t')).head?.any closes then 1 else 0

/-- Every line begins with as many tabs as there are containers around it. -/
def Indented (t : Text) : Prop :=
  ∀ before line, t = before ++ line → Text.EndsLine before →
    (line.takeWhile (· = '\t')).length = nesting before line

/-- No literal has a control character in it. -/
def LiteralsControlFree (t : Text) : Prop :=
  ∀ before c after, t = before ++ c :: after →
    (Cursor.start.run before).place.inLiteral = true → 0x20 ≤ c.toNat

/-- A character that may stand at a place: behind the tabs of a line if they are as many as there
are containers around it, and in a literal if it is no control character. -/
def Cursor.Allows (s : Cursor) (c : Char) : Prop :=
  match s.place with
  | .line tabs => c ≠ '\t' → tabs = s.depth - if closes c then 1 else 0
  | .literal | .escape => 0x20 ≤ c.toNat
  | _ => True

/-- Every character of a text may stand where it stands, and without layout another text is left. -/
inductive Prints : Cursor → Text → Text → Cursor → Prop
  | nil : Prints s [] [] s
  | layout (hc : s.place.isLayout c = true) (hallows : s.Allows c) (h : Prints (s.step c) t out s') :
    Prints s (c :: t) out s'
  | kept (hc : s.place.isLayout c = false) (hallows : s.Allows c) (h : Prints (s.step c) t out s') :
    Prints s (c :: t) (c :: out) s'

/-- What may stand behind the tabs of an entry's line: no tab, and no bracket that closes. -/
def BeginsEntry (t : Text) : Prop :=
  ∃ c rest, t = c :: rest ∧ c ∉ ['\t', ']', '\x7d']

namespace Prints

theorem append (ht : Prints s t out s') (hu : Prints s' u more s'') :
    Prints s (t ++ u) (out ++ more) s'' := by
  induction ht with
  | nil => exact hu
  | layout hc hallows _ ih => exact .layout hc hallows (ih hu)
  | kept hc hallows _ ih => exact .kept hc hallows (ih hu)

theorem run (h : Prints s t out s') : s.run t = s' := by
  induction h with
  | nil => rfl
  | layout _ _ _ ih | kept _ _ _ ih => exact ih

theorem stripped (h : Prints s t out s') : stripped s.place t = out := by
  induction h with
  | nil => rfl
  | layout hc _ _ ih => rw [Json.stripped, if_pos hc]; exact ih
  | kept hc _ _ ih => rw [Json.stripped, if_neg (Bool.eq_false_iff.mp hc)]; exact congrArg _ ih

theorem allows (h : Prints s t out s') (ht : t = before ++ c :: after) : (s.run before).Allows c := by
  induction h generalizing before with
  | nil => cases before <;> cases ht
  | layout _ hallows _ ih | kept _ hallows _ ih =>
    cases before with
    | nil =>
      obtain ⟨rfl, -⟩ := List.cons.inj ht
      exact hallows
    | cons d before =>
      obtain ⟨rfl, hrest⟩ := List.cons.inj ht
      exact ih hrest

/-- What may stand in the middle of a line may stand at its beginning if an entry begins so. -/
theorem ofLine (h : Prints ⟨.code, d⟩ t out s') (ht : BeginsEntry t) :
    Prints ⟨.line d, d⟩ t out s' := by
  obtain ⟨c, t, rfl, hc⟩ := ht
  simp only [List.mem_cons, List.not_mem_nil, or_false, not_or] at hc
  obtain ⟨htab, hlist, hobject⟩ := hc
  have hcloses : closes c = false := by simp [closes, hlist, hobject]
  have hstep : (Place.line d).step c = Place.code.step c := by simp [Place.step, htab]
  have hlayout : (Place.line d).isLayout c = Place.code.isLayout c := by
    simp [Place.isLayout, htab]
  have hcursor : (Cursor.mk (.line d) d).step c = (Cursor.mk .code d).step c := by
    simp only [Cursor.step, hstep, Place.inLiteral]
  have hallows : (Cursor.mk (.line d) d).Allows c := by
    intro _
    simp [hcloses]
  cases h with
  | layout hc _ h => exact .layout (hlayout.trans hc) hallows (hcursor ▸ h)
  | kept hc _ h => exact .kept (hlayout.trans hc) hallows (hcursor ▸ h)

theorem unescaped (h : ∀ c ∈ w, Unescaped c) (d : Nat) :
    Prints ⟨.literal, d⟩ w w ⟨.literal, d⟩ := by
  induction w with
  | nil => exact .nil
  | cons c w ih =>
    obtain ⟨⟨hquote, hbackslash, hcontrol⟩, hw⟩ := List.forall_mem_cons.mp h
    have hstep : (Cursor.mk .literal d).step c = ⟨.literal, d⟩ := by
      simp [Cursor.step, Place.step, Place.inLiteral, hquote, hbackslash]
    refine .kept rfl hcontrol ?_
    rw [hstep]
    exact ih hw

theorem escaped (h : ControlFree ['\\', e]) (d : Nat) :
    Prints ⟨.literal, d⟩ ['\\', e] ['\\', e] ⟨.literal, d⟩ :=
  .kept rfl (h '\\' List.mem_cons_self) (.kept rfl (h e (by simp)) .nil)

/-- However a character is spelled, the literal goes on behind it. -/
theorem spelled (h : SpellsChar c s) (d : Nat) : Prints ⟨.literal, d⟩ s s ⟨.literal, d⟩ := by
  have hlead : ControlFree ['\\', 'u'] := by decide
  cases h with
  | plain hquote hbackslash hcontrol =>
    exact unescaped (List.forall_mem_singleton.mpr ⟨hquote, hbackslash, hcontrol⟩) d
  | letter h => exact escaped (controlFree_letter h) d
  | unit h => exact (escaped hlead d).append (unescaped h.unescaped d)
  | halves _ hhigh hlow =>
    have hfirst := (escaped hlead d).append (unescaped hhigh.unescaped d)
    exact hfirst.append ((escaped hlead d).append (unescaped hlow.unescaped d))

theorem quote (t : Text) (d : Nat) : Prints ⟨.code, d⟩ (quote t) (quote t) ⟨.code, d⟩ := by
  have hbody : Prints ⟨.literal, d⟩ (t.flatMap escapeChar) (t.flatMap escapeChar)
      ⟨.literal, d⟩ := by
    induction t with
    | nil => exact .nil
    | cons c t ih => exact (spelled (spellsChar_escapeChar c) d).append ih
  have hmark : 0x20 ≤ '"'.toNat := by decide
  exact .kept rfl trivial (hbody.append (.kept rfl hmark .nil))

/-- The characters that are not part of a word or a number. -/
def marks : List Char :=
  ['\n', '\t', ' ', ':', '"', '[', ']', '\x7b', '\x7d']

def Unmarked (w : Text) : Prop :=
  ∀ c ∈ w, c ∉ marks

instance (w : Text) : Decidable (Unmarked w) :=
  List.decidableBAll (fun c : Char => c ∉ marks) w

theorem word (h : Unmarked w) (d : Nat) : Prints ⟨.code, d⟩ w w ⟨.code, d⟩ := by
  induction w with
  | nil => exact .nil
  | cons c w ih =>
    obtain ⟨hc, hw⟩ := List.forall_mem_cons.mp h
    simp only [marks, List.mem_cons, List.not_mem_nil, or_false, not_or] at hc
    have hstep : (Cursor.mk .code d).step c = ⟨.code, d⟩ := by
      simp [Cursor.step, Place.step, Place.inLiteral, opens, closes, hc]
    refine .kept (by simp [Place.isLayout, hc]) trivial ?_
    rw [hstep]
    exact ih hw

theorem integer (n : Int) (d : Nat) :
    Prints ⟨.code, d⟩ (integerText n) (integerText n) ⟨.code, d⟩ := by
  refine word (fun c hc => BeginsNumber.notMem ?_ (by decide)) d
  unfold integerText at hc
  split at hc
  · exact (List.mem_cons.mp hc).symm.imp_left isDigit_of_mem_ofNat
  · exact .inl (isDigit_of_mem_ofNat hc)

theorem tabs (n k d : Nat) :
    Prints ⟨.line k, d⟩ (List.replicate n '\t') [] ⟨.line (k + n), d⟩ := by
  induction n generalizing k with
  | zero => exact .nil
  | succ n ih =>
    refine .layout rfl (fun h => absurd rfl h) ?_
    rw [Nat.add_succ, ← Nat.succ_add]
    exact ih (k + 1)

/-- A line break and tabs. -/
theorem indent (n d : Nat) : Prints ⟨.code, d⟩ (indent n) [] ⟨.line n, d⟩ := by
  have htabs := tabs n 0 d
  rw [Nat.zero_add] at htabs
  exact .layout rfl trivial htabs

/-- The bracket that closes a container stands behind as many tabs as there are around it. -/
theorem close (h : c = ']' ∨ c = '\x7d') (d : Nat) :
    Prints ⟨.code, d + 1⟩ (Json.indent d ++ [c]) [c] ⟨.code, d⟩ := by
  refine (indent d (d + 1)).append ?_
  rcases h with rfl | rfl
  all_goals exact .kept rfl (fun _ => rfl) .nil

end Prints

/-- The text of tokens, with layout and without. -/
structure Laid (ts : List Token) (s : Cursor) (t out : Text) (s' : Cursor) : Prop where
  prints : Prints s t out s'
  spelled : Spelled ts t
  compact : Spelled ts out

namespace Laid

theorem append (h : Laid ss s t out s') (h' : Laid ts s' u more s'') :
    Laid (ss ++ ts) s (t ++ u) (out ++ more) s'' :=
  ⟨h.prints.append h'.prints, h.spelled.append h'.spelled, h.compact.append h'.compact⟩

theorem ofSpells (hs : Spells word x) (h : Prints s x x s') : Laid [word] s x x s' :=
  ⟨h, hs.spelled, hs.spelled⟩

theorem blank_indent (n : Nat) : Blank (indent n) :=
  List.forall_mem_cons.mpr ⟨rfl, fun _ hc => (List.eq_of_mem_replicate hc) ▸ rfl⟩

/-- An entry may stand on a line of its own. -/
theorem indented (h : Laid ts ⟨.code, d⟩ t out s') (ht : BeginsEntry t) :
    Laid ts ⟨.code, d⟩ (indent d ++ t) out s' where
  prints := (Prints.indent d d).append (h.prints.ofLine ht)
  spelled := Spelled.append (.nil (blank_indent d)) h.spelled
  compact := h.compact

theorem openList (d : Nat) : Laid [.openList] ⟨.code, d⟩ ['['] ['['] ⟨.code, d + 1⟩ :=
  have h : Prints ⟨.code, d⟩ ['['] ['['] ⟨.code, d + 1⟩ := .kept rfl trivial .nil
  ofSpells .openList h

theorem openObject (d : Nat) :
    Laid [.openObject] ⟨.code, d⟩ ['\x7b'] ['\x7b'] ⟨.code, d + 1⟩ :=
  have h : Prints ⟨.code, d⟩ ['\x7b'] ['\x7b'] ⟨.code, d + 1⟩ := .kept rfl trivial .nil
  ofSpells .openObject h

theorem comma (d : Nat) : Laid [.comma] ⟨.code, d⟩ [','] [','] ⟨.code, d⟩ :=
  have h : Prints ⟨.code, d⟩ [','] [','] ⟨.code, d⟩ := .kept rfl trivial .nil
  ofSpells .comma h

theorem colon (d : Nat) : Laid [.colon] ⟨.code, d⟩ [':', ' '] [':'] ⟨.code, d⟩ where
  prints := .kept rfl trivial (.layout rfl trivial .nil)
  spelled := Spelled.append Spells.colon.spelled (.nil (w := [' ']) (by decide))
  compact := Spells.colon.spelled

theorem field (h : Laid ts ⟨.code, d⟩ t out s') (key : Text) :
    Laid (.text key :: .colon :: ts) ⟨.code, d⟩ (quote key ++ ':' :: ' ' :: t)
      (quote key ++ ':' :: out) s' :=
  (ofSpells (.quote key) (.quote key d)).append ((colon d).append h)

theorem close (hs : Spells word [c]) (hc : c = ']' ∨ c = '\x7d') (d : Nat) :
    Laid [word] ⟨.code, d + 1⟩ (indent d ++ [c]) [c] ⟨.code, d⟩ where
  prints := .close hc d
  spelled := Spelled.append (.nil (blank_indent d)) hs.spelled
  compact := hs.spelled

end Laid

theorem beginsEntry_quote (key t : Text) : BeginsEntry (quote key ++ t) :=
  ⟨_, _, rfl, by decide⟩

/-- A value begins with a bracket, a quote, a letter, a digit or a sign. -/
theorem beginsEntry_tabbed (d : Nat) (h : Fits v.tokens) : BeginsEntry (tabbed d v) := by
  match v with
  | .null => exact ⟨_, _, rfl, by decide⟩
  | .bool true | .bool false => exact ⟨_, _, rfl, by decide⟩
  | .number n =>
    obtain ⟨i, rfl, -, -⟩ := h n (List.mem_singleton.mpr rfl)
    obtain ⟨c, t, ht, hc⟩ := head_integerText i
    exact ⟨c, t, ht, hc.notMem (by decide)⟩
  | .text t => exact ⟨_, _, rfl, by decide⟩
  | .list [] | .list (_ :: _) | .object [] | .object (_ :: _) =>
    rw [tabbed]
    exact ⟨_, _, rfl, by decide⟩

mutual

/-- The printed text of a value spells it, and its layout is that of its depth. -/
theorem laid_tabbed (v : Value) (h : Fits v.tokens) (d : Nat) :
    Laid v.tokens ⟨.code, d⟩ (tabbed d v) (compact v) ⟨.code, d⟩ := by
  match v with
  | .null =>
    have hword : Prints.Unmarked "null".toList := by decide
    exact .ofSpells .null (.word hword d)
  | .bool b =>
    have hword : ∀ b, Prints.Unmarked (boolText b) := by decide
    exact .ofSpells (.bool b) (.word (hword b) d)
  | .number n =>
    obtain ⟨i, rfl, hlow, hhigh⟩ := h n (List.mem_singleton.mpr rfl)
    exact .ofSpells (.integer hlow hhigh) (.integer i d)
  | .text t => exact .ofSpells (.quote t) (.quote t d)
  | .list [] =>
    exact (Laid.openList d).append
      (.ofSpells .closeList (.kept rfl trivial .nil : Prints ⟨.code, d + 1⟩ [']'] [']'] ⟨.code, d⟩))
  | .list (v :: vs) =>
    obtain ⟨-, h⟩ := fits_cons.mp h
    obtain ⟨hv, hvs⟩ := fits_append.mp h
    have hentries := ((laid_tabbed v hv (d + 1)).indented (beginsEntry_tabbed (d + 1) hv)).append
      (laid_tabbedItems vs hvs d)
    have hall := (Laid.openList d).append hentries
    rw [tabbed, compact]
    simp only [List.cons_append, List.append_assoc, List.nil_append] at hall ⊢
    exact hall
  | .object [] =>
    exact (Laid.openObject d).append
      (.ofSpells .closeObject
        (.kept rfl trivial .nil : Prints ⟨.code, d + 1⟩ ['\x7d'] ['\x7d'] ⟨.code, d⟩))
  | .object ((k, v) :: fs) =>
    obtain ⟨-, h⟩ := fits_cons.mp h
    obtain ⟨-, h⟩ := fits_cons.mp h
    obtain ⟨-, h⟩ := fits_cons.mp h
    obtain ⟨hv, hfs⟩ := fits_append.mp h
    have hfield := ((laid_tabbed v hv (d + 1)).field k).indented (beginsEntry_quote k _)
    have hall := (Laid.openObject d).append (hfield.append (laid_tabbedFields fs hfs d))
    rw [tabbed, compact]
    simp only [List.cons_append, List.append_assoc, List.nil_append] at hall ⊢
    exact hall

theorem laid_tabbedItems (vs : List Value) (h : Fits (itemTokens vs)) (d : Nat) :
    Laid (itemTokens vs) ⟨.code, d + 1⟩ (tabbedItems (d + 1) vs ++ (indent d ++ [']']))
      (compactItems vs ++ [']']) ⟨.code, d⟩ := by
  match vs with
  | [] => exact .close .closeList (.inl rfl) d
  | v :: vs =>
    obtain ⟨-, h⟩ := fits_cons.mp h
    obtain ⟨hv, hvs⟩ := fits_append.mp h
    have hentries := ((laid_tabbed v hv (d + 1)).indented (beginsEntry_tabbed (d + 1) hv)).append
      (laid_tabbedItems vs hvs d)
    have hall := (Laid.comma (d + 1)).append hentries
    rw [tabbedItems, compactItems]
    simp only [List.cons_append, List.append_assoc, List.nil_append] at hall ⊢
    exact hall

theorem laid_tabbedFields (fs : List (Text × Value)) (h : Fits (fieldTokens fs)) (d : Nat) :
    Laid (fieldTokens fs) ⟨.code, d + 1⟩ (tabbedFields (d + 1) fs ++ (indent d ++ ['\x7d']))
      (compactFields fs ++ ['\x7d']) ⟨.code, d⟩ := by
  match fs with
  | [] => exact .close .closeObject (.inr rfl) d
  | (k, v) :: fs =>
    obtain ⟨-, h⟩ := fits_cons.mp h
    obtain ⟨-, h⟩ := fits_cons.mp h
    obtain ⟨-, h⟩ := fits_cons.mp h
    obtain ⟨hv, hfs⟩ := fits_append.mp h
    have hfield := ((laid_tabbed v hv (d + 1)).field k).indented (beginsEntry_quote k _)
    have hall := (Laid.comma (d + 1)).append (hfield.append (laid_tabbedFields fs hfs d))
    rw [tabbedFields, compactFields]
    simp only [List.cons_append, List.append_assoc, List.nil_append] at hall ⊢
    exact hall

end

/-- The compact text of a value is one of those that spell it. -/
theorem spelled_compact (v : Value) (h : Fits v.tokens) : Spelled v.tokens (compact v) :=
  (laid_tabbed v h 0).compact

namespace Prints

theorem literalsControlFree (h : Prints .start t out s') : LiteralsControlFree t := by
  intro before c after ht hliteral
  have hallows := h.allows ht
  unfold Cursor.Allows at hallows
  cases hplace : (Cursor.start.run before).place with
  | literal | escape =>
    rw [hplace] at hallows
    exact hallows
  | _ =>
    rw [hplace] at hliteral
    cases hliteral

/-- Line feeds stand outside of literals, so that a line begins where one was. -/
theorem place_line (h : Prints .start (before ++ line) out s') (hbefore : Text.EndsLine before) :
    (Cursor.start.run before).place = .line 0 := by
  cases before using List.reverseRecOn with
  | nil => rfl
  | append_singleton front c =>
    obtain rfl : c = '\n' := hbefore c (by simp)
    have hcode : (Cursor.start.run front).place.inLiteral ≠ true := fun hliteral =>
      absurd (h.literalsControlFree front '\n' line (List.append_assoc ..) hliteral) (by decide)
    rw [Cursor.run_append]
    change Place.step _ '\n' = _
    cases hplace : (Cursor.start.run front).place with
    | literal | escape => exact absurd (hplace ▸ rfl) hcode
    | _ => rfl

/-- The tabs at the beginning of a line are counted. -/
theorem run_tabs {s : Cursor} (h : s.place = .line 0) (line : Text) :
    s.run (line.takeWhile (· = '\t')) =
      ⟨.line (line.takeWhile (· = '\t')).length, s.depth⟩ := by
  have htabs : line.takeWhile (· = '\t') =
      List.replicate (line.takeWhile (· = '\t')).length '\t' :=
    List.eq_replicate_of_mem fun c hc => of_decide_eq_true (Text.mem_takeWhile hc)
  have hrun := (tabs (line.takeWhile (· = '\t')).length 0 s.depth).run
  rw [← h, ← htabs, Nat.zero_add] at hrun
  exact hrun

theorem indented (h : Prints .start t out ⟨.code, d⟩) : Indented t := by
  rintro before line rfl hbefore
  have hbehind := run_tabs (h.place_line hbefore) line
  rw [← Cursor.run_append] at hbehind
  unfold nesting
  cases hrest : line.dropWhile (· = '\t') with
  | nil =>
    -- The text would end in the tabs of a line.
    have hline := List.takeWhile_append_dropWhile (p := (· = '\t')) (l := line)
    rw [hrest, List.append_nil] at hline
    rw [hline, h.run] at hbehind
    cases hbehind
  | cons c rest =>
    obtain ⟨hline, hc⟩ := Text.split_run hrest
    have hfirst : before ++ line =
        (before ++ line.takeWhile (· = '\t')) ++ c :: rest := by
      rw [List.append_assoc, ← hline]
    have hallows := h.allows hfirst
    rw [hbehind] at hallows
    exact hallows (of_decide_eq_false hc)

end Prints

end GadgetBuild.Json
