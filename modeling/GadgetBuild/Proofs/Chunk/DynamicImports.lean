import GadgetBuild.Plugin
import GadgetBuild.Proofs.Chunk.PathEnds
import GadgetBuild.Proofs.Json.Lines
import GadgetBuild.Proofs.Overlay.Removals

/-!
The main chunk with its dynamic imports redirected. A dynamic import that the build tool was made to
print is redirected in the path that was printed, and the base before it stays.
-/

namespace GadgetBuild.Chunk

/-- The letter that a dynamic import has too much. -/
def letter (o : Text.Occurrence Nat) : Span :=
  ⟨o.start + o.value, o.start + o.value + 1⟩

/-- The letters to go from a text that starts at an offset. -/
def lettersFrom (offset : Nat) (t : Text) : List Span :=
  (Text.occurrencesFrom dynamicImport? offset 0 t).map letter

/-- A text that starts at an offset, without those letters. -/
def redirectedFrom (offset : Nat) (t : Text) : Text :=
  Text.without (lettersFrom offset t) offset t

theorem marks_letters (offset : Nat) (t : Text) : Text.Marks offset (lettersFrom offset t) t := by
  unfold lettersFrom
  generalize hos : Text.occurrencesFrom dynamicImport? offset 0 t = os
  induction os generalizing offset t with
  | nil => trivial
  | cons o os ih =>
    obtain ⟨gap, rest, rfl, hstart, -, hmatch, hrest⟩ :=
      sound_dynamicImport.occurrencesFrom_eq_cons hos
    obtain ⟨p, q, hp, hvalue⟩ := exists_letter hmatch
    have hstop : o.stop = (letter o).stop + Text.size q := by
      rw [Text.Occurrence.stop, hp, Text.size_append, Text.size_cons, ← hvalue, letter,
        ← Nat.add_assoc, ← Nat.add_assoc]
      rfl
    refine ⟨gap ++ p, ['c'], q ++ rest, by simp [hp], by simp, ?_, rfl, ?_⟩
    · rw [Text.size_append, ← hvalue, ← Nat.add_assoc, ← hstart]
      rfl
    · exact Text.Marks.append_left (hstop ▸ ih o.stop rest hrest)

/-- With no line removed, the letters of all dynamic imports go. -/
theorem redirectImports_eq (code : Text) :
    ∃ o, redirectImports code [] (.ofText code) = .ok o ∧
      o.render = some (redirectedFrom 0 code) := by
  obtain ⟨o, happly, hrender⟩ := (Overlay.Separate.of_marks (marks_letters 0 code)).render_removals
  refine ⟨o, ?_, hrender⟩
  have hedits : ((code.occurrences dynamicImport?).map fun i => i.start + i.value).map
      (fun i => Overlay.Edit.remove ⟨i, i + 1⟩) = (lettersFrom 0 code).map .remove := by
    rw [lettersFrom, List.map_map, List.map_map]
    rfl
  simp only [redirectImports, List.all_nil, List.filter_true]
  rw [hedits, happly]
  rfl

/-- With nothing to be loaded on demand only, the main chunk keeps what it takes from others. -/
theorem render_of_hoisted {s : Settings} {chunks : Table Chunk} {c : Chunk}
    (hesm : s.esmChunks = true) (hmain : c.name = mainName)
    (hhoisted : ∀ names ∈ s.esmUnhoistChunks, unhoisted names chunks = []) (code : Text) :
    ∃ out, render s .cjs chunks code c = (c, .ok (some out)) ∧
      out.code = redirectedFrom 0 code := by
  obtain ⟨o, ho, hrender⟩ := redirectImports_eq code
  have hfiles : (s.esmUnhoistChunks.map fun names => unhoisted names chunks).getD [] = [] := by
    cases hnames : s.esmUnhoistChunks with
    | none => rfl
    | some names => exact hhoisted names hnames
  obtain ⟨m, -, htrace⟩ := Overlay.exists_trace hrender c.filename
  refine ⟨⟨redirectedFrom 0 code, m⟩, ?_, rfl⟩
  have hchunk : { c with imports := c.imports.filter (· ∉ ([] : List Text)) } = c := by
    simp
  unfold render
  rw [hfiles, if_neg (by simp [hesm, hmain])]
  simp only [dropBindings, removeAllRequires, hchunk, bind, Except.bind]
  rw [ho]
  simp only [htrace, Except.mapError, pure, Except.pure]

theorem bounds_letters (h : s ∈ lettersFrom offset t) :
    offset ≤ s.start ∧ s.stop ≤ offset + t.size := by
  have := (marks_letters offset t).bounds s h
  omega

/-- Where a text starts changes nothing of what is left of it. -/
theorem redirectedFrom_add (offset k : Nat) (t : Text) :
    redirectedFrom (offset + k) t = redirectedFrom offset t := by
  refine Text.without_congr fun i hi => ?_
  simp only [lettersFrom, Text.occurrencesFrom_add, List.mem_map]
  constructor
  · rintro ⟨s, ⟨o, ⟨o', ho, rfl⟩, rfl⟩, hhas⟩
    refine ⟨_, ⟨o', ho, rfl⟩, ?_⟩
    unfold letter Span.Has at *
    dsimp only at *
    omega
  · rintro ⟨s, ⟨o, ho, rfl⟩, hhas⟩
    refine ⟨_, ⟨_, ⟨o, ho, rfl⟩, rfl⟩, ?_⟩
    unfold letter Span.Has at *
    dsimp only at *
    omega

/-- Parts of a text go their own ways, if what follows the first changes nothing of what is
recognised in it. -/
theorem redirectedFrom_append {t u : Text}
    (hsame : ∀ p q, t = p ++ q → q ≠ [] → dynamicImport? (q ++ u) = dynamicImport? q) :
    redirectedFrom offset (t ++ u) =
      redirectedFrom offset t ++ redirectedFrom (offset + t.size) u := by
  have hletters : lettersFrom offset (t ++ u) =
      lettersFrom offset t ++ lettersFrom (offset + t.size) u := by
    rw [lettersFrom, sound_dynamicImport.occurrencesFrom_append hsame, List.map_append]
    rfl
  rw [redirectedFrom, hletters]
  exact Text.without_append_append (fun s hs => (bounds_letters hs).2)
    fun s hs => (bounds_letters hs).1

/-- A dynamic import loses the letter, and what follows it goes its own way. -/
theorem redirectedFrom_import {p q t : Text}
    (h : dynamicImport? (p ++ 'c' :: q ++ t) = some (p ++ 'c' :: q, p.size)) :
    redirectedFrom offset (p ++ 'c' :: q ++ t) =
      p ++ q ++ redirectedFrom (offset + Text.size (p ++ 'c' :: q)) t := by
  have hletters : lettersFrom offset (p ++ 'c' :: q ++ t) =
      [⟨offset + p.size, offset + p.size + 1⟩] ++
        lettersFrom (offset + Text.size (p ++ 'c' :: q)) t := by
    rw [lettersFrom, sound_dynamicImport.occurrencesFrom_some h, List.map_cons]
    rfl
  have hone : Text.without [⟨offset + p.size, offset + p.size + 1⟩] offset (p ++ 'c' :: q) =
      p ++ q := by
    rw [Text.without_append, Text.without, if_pos, Text.without_eq_self, Text.without_eq_self]
    · intro s hs i hi hhas
      rw [List.mem_singleton.mp hs] at hhas
      have := hhas.2
      have hone : 'c'.utf8Size = 1 := rfl
      dsimp only at this
      omega
    · intro s hs i hi hhas
      rw [List.mem_singleton.mp hs] at hhas
      have := hhas.1
      dsimp only at this
      omega
    · exact ⟨_, List.mem_singleton.mpr rfl, Nat.le_refl _, Nat.lt_succ_self _⟩
  rw [redirectedFrom, hletters, Text.without_append_append, hone]
  · rfl
  · intro s hs
    rw [List.mem_singleton.mp hs, Text.size_append, Text.size_cons]
    have : 'c'.utf8Size = 1 := rfl
    dsimp only
    omega
  · exact fun s hs => (bounds_letters hs).1

/-- No quote stands right behind the last letter of an extension. -/
def Unended (t : Text) : Prop :=
  t.IsChain fun a b => b = '"' ∨ b = '\'' → a ≠ 's'

instance (t : Text) : Decidable (Unended t) :=
  inferInstanceAs (Decidable (t.IsChain _))

theorem unended_of_notMem {t : Text} (h : ∀ c ∈ t, c ≠ '"' ∧ c ≠ '\'') : Unended t :=
  List.Pairwise.isChain (List.pairwise_of_forall_mem_list fun _ _ b hb hquote _ =>
    hquote.elim (h b hb).1 (h b hb).2)

/-- In such a text no path ends. -/
theorem Unended.pathEnd?_eq_none {t : Text} (h : Unended t) (ht : t ≠ []) (rest : Text) :
    pathEnd? (t ++ (extension ++ rest)) = none := by
  by_contra hne
  obtain ⟨e, he⟩ := Option.ne_none_iff_exists'.mp hne
  obtain ⟨⟨quote, tail, hquote, -, rfl⟩, u, hu⟩ := pathEnd?_eq_some_iff.mp he
  have hext : extension = ['.', 'c', 'j', 's'] := by decide
  rw [hext] at hu
  -- The quote of the end would be a character of the extension, or stand in the text.
  rcases t with _ | ⟨a, _ | ⟨b, _ | ⟨c, _ | ⟨d, _ | ⟨q, t⟩⟩⟩⟩⟩
  · exact ht rfl
  · simp at hu
  · simp at hu
  · simp at hu
  · obtain rfl : '.' = quote := by simp at hu; exact hu.2.2.2.2.1
    rcases hquote with hquote | hquote <;> cases hquote
  · simp only [List.cons_append, List.nil_append, List.cons.injEq] at hu
    obtain ⟨rfl, rfl, rfl, rfl, rfl, -⟩ := hu
    have hlast : Unended ['s', q] := h.infix ⟨['.', 'c', 'j'], t, rfl⟩
    exact (List.isChain_pair.mp hlast) hquote rfl

/-- The argument of a dynamic import up to the end of its path, which is the first end behind the
call. -/
theorem Unended.nearestPathEnd? {t : Text} (h : Unended t) (ht : t ≠ []) (hline : '\n' ∉ t)
    (hend : IsPathEnd (extension ++ e)) (rest : Text) :
    nearestPathEnd? (t ++ (extension ++ e ++ rest)) = some (t, extension ++ e) := by
  refine nearestPathEnd?_eq_some_iff.mpr ⟨ht, hline, extension ++ e ++ rest, rfl,
    pathEnd?_eq_some_iff.mpr ⟨hend, rest, rfl⟩, ?_⟩
  rintro p q rfl - hq
  rw [List.append_assoc]
  exact Unended.pathEnd?_eq_none (h.suffix (List.suffix_append p q)) hq _

/-- Texts put together, where the second begins without a quote or the first ends in another
character than an extension. -/
theorem Unended.append (ht : Unended t) (hu : Unended u)
    (hjoin : 's' ∉ t.getLast? ∨ ∀ c ∈ u.head?, c ≠ '"' ∧ c ≠ '\'') : Unended (t ++ u) := by
  refine List.IsChain.append ht hu fun a ha b hb hquote he => ?_
  subst he
  rcases hjoin with hlast | hhead
  · exact hlast ha
  · exact hquote.elim (hhead b hb).1 (hhead b hb).2

theorem unended_escapeChar (h : c ≠ '\'') : Unended (Json.escapeChar c) := by
  by_cases hquote : c = '"'
  · subst hquote
    decide
  · refine unended_of_notMem fun d hd => ⟨?_, ?_⟩
    · rintro rfl
      exact hquote (Json.eq_of_mem_escapeChar hd (by decide) (by decide)).symm
    · rintro rfl
      exact h (Json.eq_of_mem_escapeChar hd (by decide) (by decide)).symm

/-- Escapes hide the quotes at the front of a text. -/
theorem head_escaped {url : Text} (h : '\'' ∉ url) :
    ∀ d ∈ (url.flatMap Json.escapeChar).head?, d ≠ '"' ∧ d ≠ '\'' := by
  cases url with
  | nil => simp
  | cons c url =>
    obtain ⟨d, t, hc, hd⟩ := Json.exists_escapeChar c
    intro e he
    rw [List.flatMap_cons, hc] at he
    obtain rfl : d = e := Option.some.inj he
    rcases hd with rfl | rfl
    · refine ⟨?_, fun hsingle => h (hsingle ▸ List.mem_cons_self)⟩
      rintro rfl
      cases hc
    · decide

theorem unended_escaped {url : Text} (h : '\'' ∉ url) :
    Unended (url.flatMap Json.escapeChar) := by
  induction url with
  | nil => exact .nil
  | cons c url ih =>
    have hrest : '\'' ∉ url := fun hmem => h (List.mem_cons_of_mem _ hmem)
    rw [List.flatMap_cons]
    exact (unended_escapeChar fun hc => h (hc ▸ List.mem_cons_self)).append (ih hrest)
      (Or.inr (head_escaped hrest))

/-- A base is empty or ends in a slash. -/
theorem closeUrl_cases (url : Text) : closeUrl url = [] ∨ ∃ u, closeUrl url = u ++ ['/'] := by
  unfold closeUrl
  split
  · rename_i h
    rcases h with h | h
    · exact Or.inl h
    · exact Or.inr (List.getLast?_eq_some_iff.mp h)
  · exact Or.inr ⟨url, rfl⟩

theorem notMem_closeUrl {url : Text} (h : '\'' ∉ url) : '\'' ∉ closeUrl url := by
  unfold closeUrl
  split
  · exact h
  · simpa using h

/-- The literal of a base: no path ends in it, whatever its characters, and it is one line. -/
theorem unended_quote_closeUrl {url : Text} (h : '\'' ∉ url) :
    Unended (Json.quote (closeUrl url)) := by
  have hlast : 's' ∉ ((closeUrl url).flatMap Json.escapeChar).getLast? := by
    rcases closeUrl_cases url with he | ⟨u, he⟩
    · rw [he]
      decide
    · rw [he, List.flatMap_append, List.flatMap_singleton]
      have hslash : Json.escapeChar '/' = ['/'] := by decide
      rw [hslash, List.getLast?_concat]
      decide
  have hquote : Unended ['"'] := .singleton _
  have hinner := (unended_escaped (notMem_closeUrl h)).append hquote (Or.inl hlast)
  rw [Json.quote, List.cons_append, ← List.singleton_append]
  exact hquote.append hinner (Or.inl (by decide))

/-- The argument of a dynamic import of a file, up to the end of its path. -/
def argument (base f : Text) : Text :=
  Json.quote base ++ " + ".toList ++ '"' :: f

theorem unended_argument {url f : Text} (h : '\'' ∉ url) (hf : ∀ c ∈ f, c ≠ '"' ∧ c ≠ '\'') :
    Unended (argument (closeUrl url) f) := by
  have hplus : " + ".toList = [' ', '+'] ++ [' '] := rfl
  have hquote : Unended ['"'] := .singleton _
  have hpath := hquote.append (unended_of_notMem hf) (Or.inl (by decide))
  unfold argument
  rw [hplus, ← List.append_assoc]
  refine Unended.append ?_ hpath (Or.inl ?_)
  · rw [List.append_assoc]
    exact (unended_quote_closeUrl h).append (by decide) (Or.inr fun c hc => by
      obtain rfl := Option.some.inj hc
      decide)
  · rw [List.getLast?_concat]
    decide

theorem notMem_argument {base f : Text} (hf : '\n' ∉ f) : '\n' ∉ argument base f := by
  have hquote : '\n' ∉ Json.quote base := Text.lineFeeds_eq_zero.mp (Json.lineFeeds_quote base)
  have hplus : '\n' ∉ " + ".toList := by decide
  simp [argument, hquote, hf]

/-- What is left of whole lines ends in a line feed too. -/
theorem exists_line_end {before m : Text} (hline : before = [] ∨ before.getLast? = some '\n')
    (hm : m <:+ before) (hne : m ≠ []) : ∃ lines, m = lines ++ ['\n'] := by
  obtain ⟨a, rfl⟩ := hm
  rcases hline with hnil | hlast
  · exact absurd (List.append_eq_nil_iff.mp hnil).2 hne
  · rw [List.getLast?_append_of_ne_nil _ hne] at hlast
    exact List.getLast?_eq_some_iff.mp hlast

section

variable {before pre : Text} (hline : before = [] ∨ before.getLast? = some '\n')
  (hpre : ¬ importLead <:+: pre)

include hline hpre

/-- Lines before a call, and the text of its own line before it, without a call in that: what is
recognised in them is so without the call. -/
theorem dynamicImport?_before (hu : importLead <+: u) : ∀ p q, before ++ pre = p ++ q → q ≠ [] →
    dynamicImport? (q ++ u) = dynamicImport? q := by
  intro p q he hq
  obtain ⟨u, rfl⟩ := hu
  have hlead : importLead = 'i' :: "mport(".toList := rfl
  rw [hlead, List.cons_append]
  refine dynamicImport?_append_call hq ?_ _
  rintro rest rfl
  have hfeed : '\n' ∉ importLead := by decide
  rcases Text.suffix_append_cases ⟨p, he.symm⟩ with hin | ⟨b, hb, hbefore, hrest⟩
  · exact absurd ((List.prefix_append importLead rest).isInfix.trans hin.isInfix) hpre
  · obtain ⟨b, rfl⟩ := exists_line_end hline hbefore hb
    rw [List.append_assoc] at hrest
    obtain ⟨m, rfl⟩ := Text.exists_append_of_notMem hrest hfeed
    rw [List.append_assoc] at hrest
    rw [List.append_cancel_left hrest]
    simp

/-- In such a text every dynamic import has its letter in the lines before. -/
theorem letter_before (ho : o ∈ Text.occurrencesFrom dynamicImport? 0 0 (before ++ pre)) :
    (letter o).stop ≤ before.size := by
  obtain ⟨p, rest, he, hstart, hmatch⟩ := sound_dynamicImport.of_mem ho
  obtain ⟨r, b, e, hr, hnearest, -, hvalue⟩ := dynamicImport?_eq_some_iff.mp hmatch
  obtain ⟨-, hb, u, rfl, hend, -⟩ := nearestPathEnd?_eq_some_iff.mp hnearest
  obtain ⟨⟨quote, tail, -, -, rfl⟩, v, rfl⟩ := pathEnd?_eq_some_iff.mp hend
  have hext : extension = ['.'] ++ ['c', 'j', 's'] := by decide
  rw [hr] at he
  by_cases hle : Text.size before ≤ Text.size p
  · obtain ⟨m, rfl, rfl⟩ := Text.append_of_size_le he hle
    exact absurd (List.infix_append' m importLead _) hpre
  · obtain ⟨m, rfl, hm⟩ := Text.append_of_size_le he.symm (by omega)
    have hne : m ≠ [] := by
      rintro rfl
      simp at hle
    obtain ⟨m, rfl⟩ := exists_line_end hline (List.suffix_append p m) hne
    -- The line feed stands behind the letter, for nothing before the letter is one.
    have hfeed : '\n' ∉ importLead ++ b ++ ['.'] := by
      have : '\n' ∉ importLead := by decide
      simp [this, hb]
    have hsplit : (importLead ++ b ++ ['.']) ++ (['c', 'j', 's'] ++ quote :: tail ++ v) =
        m ++ '\n' :: pre := by
      rw [List.append_cons m '\n' pre, ← hm, hext]
      simp only [List.append_assoc]
    obtain ⟨n, rfl⟩ := Text.exists_append_of_notMem hsplit hfeed
    have hn : Text.size ['\n'] = 1 := rfl
    rw [letter, hstart, hvalue, Text.size_append p, Text.size_append (_ ++ n),
      Text.size_append _ n]
    dsimp only
    omega

theorem pre_suffix_redirected : pre <:+ redirectedFrom 0 (before ++ pre) := by
  rw [redirectedFrom, Text.without_append, Text.without_eq_self (t := pre)]
  · exact List.suffix_append _ pre
  · intro s hs i hi hhas
    obtain ⟨o, ho, rfl⟩ := List.mem_map.mp hs
    have := letter_before hline hpre ho
    have := hhas.2
    omega

end

/-- A printed dynamic import is recognised, and the letter to go is that of its file. -/
theorem dynamicImport?_printed {url f : Text} (h : '\'' ∉ url)
    (hf : ∀ c ∈ f, c ≠ '"' ∧ c ≠ '\'' ∧ c ≠ '\n') (post : Text) :
    dynamicImport? ((importLead ++ argument (closeUrl url) f ++ ['.']) ++
        'c' :: "js\")".toList ++ post) =
      some ((importLead ++ argument (closeUrl url) f ++ ['.']) ++ 'c' :: "js\")".toList,
        Text.size (importLead ++ argument (closeUrl url) f ++ ['.'])) := by
  have hend : IsPathEnd (extension ++ ['"', ')']) := ⟨'"', [')'], Or.inl rfl, Or.inl rfl, rfl⟩
  have htext : ['.'] ++ 'c' :: "js\")".toList = extension ++ ['"', ')'] := by decide
  have hfound : (importLead ++ argument (closeUrl url) f ++ ['.']) ++ 'c' :: "js\")".toList =
      importLead ++ argument (closeUrl url) f ++ (extension ++ ['"', ')']) := by
    rw [List.append_assoc _ ['.'], htext]
  have hunended := unended_argument h fun c hc => ⟨(hf c hc).1, (hf c hc).2.1⟩
  rw [hfound]
  refine dynamicImport?_eq_some_iff.mpr ⟨_, _, _, List.append_assoc _ _ _,
    hunended.nearestPathEnd? (by simp [argument]) ?_ hend post, rfl, rfl⟩
  exact notMem_argument fun hc => (hf _ hc).2.2 rfl

/-- A printed dynamic import between other code loses the letter of its file, and what stands before
and behind it becomes what it becomes without it. -/
theorem redirectedFrom_printed {url before pre f : Text} (h : '\'' ∉ url)
    (hf : ∀ c ∈ f, c ≠ '"' ∧ c ≠ '\'' ∧ c ≠ '\n')
    (hline : before = [] ∨ before.getLast? = some '\n') (hpre : ¬ importLead <:+: pre)
    (post : Text) :
    redirectedFrom 0 (before ++ pre ++ (importLead ++ argument (closeUrl url) f ++
        ".cjs\")".toList) ++ post) =
      redirectedFrom 0 (before ++ pre) ++ (importLead ++ argument (closeUrl url) f ++
        ".js\")".toList) ++ redirectedFrom 0 post := by
  have hlong : ".cjs\")".toList = ['.'] ++ 'c' :: "js\")".toList := by decide
  have hshort : ".js\")".toList = ['.'] ++ "js\")".toList := by decide
  have htext : before ++ pre ++ (importLead ++ argument (closeUrl url) f ++ ".cjs\")".toList) ++
      post = (before ++ pre) ++ (importLead ++ argument (closeUrl url) f ++ ['.'] ++
        'c' :: "js\")".toList ++ post) := by
    rw [hlong]
    simp only [List.append_assoc]
  have hcall : importLead <+: importLead ++ argument (closeUrl url) f ++ ['.'] ++
      'c' :: "js\")".toList ++ post := by
    simp only [List.append_assoc]
    exact List.prefix_append importLead _
  rw [htext, redirectedFrom_append (dynamicImport?_before hline hpre hcall),
    redirectedFrom_import (p := importLead ++ argument (closeUrl url) f ++ ['.'])
      (dynamicImport?_printed h hf post),
    redirectedFrom_add, redirectedFrom_add, hshort]
  simp only [List.append_assoc]

/-- The dynamic imports of a build in two formats keep their base. Behind the text that is printed
around a path there stand lines of other code, and the text of its own line without a call. Of the
printed import exactly the letter that its file has too much goes, whatever the base contains; the
text before it in the line stays, and the lines before it and the text behind it become what they
become without it. -/
theorem dynamicImport_keeps_base {o : Options} {chunks : Table Chunk} {c : Chunk}
    {before pre f post : Text} (hesm : o.esmChunks = some true)
    (hurl : ∀ url ∈ o.baseUrl, '\'' ∉ url) (hmain : c.name = mainName)
    (hhoisted : ∀ names ∈ o.esmUnhoistChunks, unhoisted names chunks = [])
    (hf : ∀ d ∈ f, d ≠ '"' ∧ d ≠ '\'' ∧ d ≠ '\n')
    (hline : before = [] ∨ before.getLast? = some '\n') (hpre : ¬ "import(".toList <:+: pre) :
    ∃ left right, (Plugin.gadget o.settings).aroundDynamicImport = some (left, right) ∧
      ∃ first whole last,
        (Plugin.gadget o.settings).renderChunk .cjs chunks (before ++ pre) c =
          (c, .ok (some first)) ∧
        (Plugin.gadget o.settings).renderChunk .cjs chunks
          (before ++ pre ++ (left ++ '"' :: f ++ ".cjs\"".toList ++ right) ++ post) c =
          (c, .ok (some whole)) ∧
        (Plugin.gadget o.settings).renderChunk .cjs chunks post c = (c, .ok (some last)) ∧
        pre <:+ first.code ∧
        whole.code =
          first.code ++ (left ++ '"' :: f ++ ".js\"".toList ++ right) ++ last.code := by
  have hset : o.settings.esmChunks = true := by
    simp [Options.settings, hesm]
  have hbase : '\'' ∉ o.baseUrl.getD [] := by
    cases hu : o.baseUrl with
    | none => simp
    | some url => exact hurl url hu
  have hrender := render_of_hoisted (s := o.settings) hset hmain hhoisted
  have haround : (Plugin.gadget o.settings).aroundDynamicImport =
      some (importLead ++ Json.quote o.settings.baseUrl ++ " + ".toList, [')']) := if_pos hset
  refine ⟨_, _, haround, ?_⟩
  obtain ⟨first, hfirst, hcode₁⟩ := hrender (before ++ pre)
  obtain ⟨last, hlast, hcode₂⟩ := hrender post
  obtain ⟨whole, hwhole, hcode⟩ := hrender
    (before ++ pre ++ (importLead ++ Json.quote o.settings.baseUrl ++ " + ".toList ++ '"' :: f ++
      ".cjs\"".toList ++ [')']) ++ post)
  refine ⟨first, whole, last, hfirst, hwhole, hlast, ?_, ?_⟩
  · rw [hcode₁]
    exact pre_suffix_redirected hline hpre
  · have hlong : ".cjs\"".toList ++ [')'] = ".cjs\")".toList := by decide
    have hshort : ".js\"".toList ++ [')'] = ".js\")".toList := by decide
    have hprinted : ∀ e : Text, importLead ++ Json.quote o.settings.baseUrl ++ " + ".toList ++
        '"' :: f ++ e ++ [')'] = importLead ++ argument o.settings.baseUrl f ++ (e ++ [')']) := by
      intro e
      simp only [argument, List.append_assoc]
    rw [hcode, hcode₁, hcode₂, hprinted, hprinted, hlong, hshort]
    exact redirectedFrom_printed hbase hf hline hpre post

/-- A base that spells ends of paths. -/
def awkwardBase : Options :=
  ⟨"gadget".toList, "src/main.ts".toList, none, none, none, none, none, none, some true, none,
    some "https://example.org/a.cjs\").cjs".toList⟩

def mainChunk : Chunk :=
  ⟨mainName, "gadget.cjs".toList, true, [], []⟩

theorem awkwardBase_keeps_base : ∃ whole,
    (Plugin.gadget awkwardBase.settings).renderChunk .cjs [] ("import('./a.cjs'\n); load = () => " ++
      "import(\"https://example.org/a.cjs\\\").cjs/\" + \"./heavy.cjs\");\n").toList mainChunk =
      (mainChunk, .ok (some whole)) ∧
    whole.code = ("import('./a.js'\n); load = () => " ++
      "import(\"https://example.org/a.cjs\\\").cjs/\" + \"./heavy.js\");\n").toList := by
  have hfile : ("./heavy".toList.all fun d => decide (d ≠ '"' ∧ d ≠ '\'' ∧ d ≠ '\n')) = true := by
    decide +kernel
  obtain ⟨left, right, haround, first, whole, last, hfirst, hwhole, hlast, -, hcode⟩ :=
    @dynamicImport_keeps_base awkwardBase [] mainChunk "import('./a.cjs'\n".toList
      "); load = () => ".toList "./heavy".toList ";\n".toList rfl
      (fun url hurl => by
        obtain rfl := Option.some.inj hurl
        decide +kernel)
      rfl (fun _ _ => rfl)
      (fun d hd => of_decide_eq_true (List.all_eq_true.mp hfile d hd))
      (Or.inr (by decide +kernel)) (by decide +kernel)
  have hparts : (Plugin.gadget awkwardBase.settings).aroundDynamicImport =
      some ("import(\"https://example.org/a.cjs\\\").cjs/\" + ".toList, [')']) := by
    decide +kernel
  obtain ⟨rfl, rfl⟩ := Prod.mk.inj (Option.some.inj (haround.symm.trans hparts))
  have hbefore : (((Plugin.gadget awkwardBase.settings).renderChunk .cjs []
      ("import('./a.cjs'\n".toList ++ "); load = () => ".toList) mainChunk).2.toOption.bind id).map
        (·.code) = some "import('./a.js'\n); load = () => ".toList := by
    decide +kernel
  have hbehind : (((Plugin.gadget awkwardBase.settings).renderChunk .cjs [] ";\n".toList
      mainChunk).2.toOption.bind id).map (·.code) = some ";\n".toList := by
    decide +kernel
  rw [hfirst] at hbefore
  rw [hlast] at hbehind
  have hfirstCode : first.code = _ := Option.some.inj hbefore
  have hlastCode : last.code = _ := Option.some.inj hbehind
  refine ⟨whole, hwhole, ?_⟩
  rw [hcode, hfirstCode, hlastCode]
  decide +kernel

end GadgetBuild.Chunk
