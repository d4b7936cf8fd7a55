import Mathlib.Data.List.Chain
import GadgetBuild.Overlay.Tracing
import GadgetBuild.Proofs.Overlay.Threads
import GadgetBuild.Proofs.SourceMap.Decoding

/-!
Where the source map of an overlay says that its characters come from. A kept character is traced
to its own place, and so is a line feed if the character before it in the text is shown right before
it on its line.
-/

namespace GadgetBuild.Overlay

open SourceMap (Position Link Token Traces)

/-- The place of an offset. -/
def place (text : Text) (k : Nat) : Position :=
  Position.zero.advance (text.upTo k)

theorem place_size (p q : Text) : place (p ++ q) p.size = Position.zero.advance p := by
  rw [place, Text.upTo_size_append]

/-- Behind a kept character of its line, a kept character needs no link. -/
def Glyph.breaks : Glyph → Bool
  | .old _ c => c = '\n'
  | .new _ _ | .inserted _ => true

def Glyph.link? (text : Text) (fresh : Bool) (generated : Position) : Glyph → Option Link
  | .old k c => if fresh ∧ c ≠ '\n' then some ⟨generated, place text k⟩ else none
  | .new k content => if content = [] then none else some ⟨generated, place text k⟩
  | .inserted _ => none

/-- The links of glyphs that are shown one behind the other. -/
def linksOfGlyphs (text : Text) (fresh : Bool) (generated : Position) : List Glyph → List Link
  | [] => []
  | g :: gs =>
    (g.link? text fresh generated).toList ++
      linksOfGlyphs text g.breaks (generated.advance g.text) gs

/-- Whether the next kept character is linked. -/
def freshBehind (fresh : Bool) (gs : List Glyph) : Bool :=
  gs.foldl (fun _ g => g.breaks) fresh

variable {text : Text} {gs : List Glyph}

theorem linksOfGlyphs_append (fresh : Bool) (generated : Position) (first next : List Glyph) :
    linksOfGlyphs text fresh generated (first ++ next) =
      linksOfGlyphs text fresh generated first ++ linksOfGlyphs text (freshBehind fresh first)
        (generated.advance (first.flatMap Glyph.text)) next := by
  induction first generalizing fresh generated with
  | nil => rfl
  | cons g gs ih =>
    rw [List.cons_append, linksOfGlyphs, linksOfGlyphs, ih, List.append_assoc, List.flatMap_cons,
      Position.advance_append]
    rfl

theorem linksOfGlyphs_concat (fresh : Bool) (generated : Position) (gs : List Glyph) (g : Glyph) :
    linksOfGlyphs text fresh generated (gs ++ [g]) = linksOfGlyphs text fresh generated gs ++
      (g.link? text (freshBehind fresh gs) (generated.advance (gs.flatMap Glyph.text))).toList := by
  rw [linksOfGlyphs_append, linksOfGlyphs, linksOfGlyphs, List.append_nil]

theorem freshBehind_concat (fresh : Bool) (gs : List Glyph) (g : Glyph) :
    freshBehind fresh (gs ++ [g]) = g.breaks := by
  simp [freshBehind]

theorem Glyph.breaks_eq_false_iff {g : Glyph} :
    g.breaks = false ↔ ∃ k c, g = .old k c ∧ c ≠ '\n' := by
  cases g with
  | old k c => simp [breaks]
  | new | inserted => simp [breaks]

theorem Glyph.of_link? {g : Glyph} (h : g.link? text fresh generated = some l) :
    l.generated = generated ∧ g.text ≠ [] := by
  cases g with
  | old k c =>
    obtain ⟨_, hl⟩ := Option.ite_none_right_eq_some.mp h
    obtain rfl := Option.some.inj hl
    exact ⟨rfl, List.cons_ne_nil c []⟩
  | new k content =>
    obtain ⟨hne, hl⟩ := Option.ite_none_left_eq_some.mp h
    obtain rfl := Option.some.inj hl
    exact ⟨rfl, hne⟩
  | inserted content => cases h

theorem lt_advance {t : Text} (h : t ≠ []) (p : Position) : p < p.advance t := by
  cases t with
  | nil => exact absurd rfl h
  | cons c t => exact (p.lt_step c).trans_le ((p.step c).le_advance t)

/-- Each link is at a place of what is shown. -/
theorem bounds_linksOfGlyphs (h : l ∈ linksOfGlyphs text fresh generated gs) :
    generated ≤ l.generated ∧ l.generated < generated.advance (gs.flatMap Glyph.text) := by
  induction gs generalizing fresh generated with
  | nil => cases h
  | cons g gs ih =>
    rw [List.flatMap_cons, Position.advance_append]
    rcases List.mem_append.mp h with h | h
    · obtain ⟨rfl, hne⟩ := Glyph.of_link? (Option.mem_toList.mp h)
      exact ⟨le_refl _, (lt_advance hne _).trans_le (Position.le_advance _ _)⟩
    · obtain ⟨hlo, hhi⟩ := ih h
      exact ⟨(generated.le_advance g.text).trans hlo, hhi⟩

theorem increasing_linksOfGlyphs (fresh : Bool) (generated : Position) (gs : List Glyph) :
    (linksOfGlyphs text fresh generated gs).Pairwise fun a b => a.generated < b.generated := by
  induction gs generalizing fresh generated with
  | nil => exact .nil
  | cons g gs ih =>
    refine List.pairwise_append.mpr ⟨?_, ih _ _, fun a ha b hb => ?_⟩
    · cases g.link? text fresh generated <;> simp
    · obtain ⟨rfl, hne⟩ := Glyph.of_link? (Option.mem_toList.mp ha)
      exact (lt_advance hne _).trans_le (bounds_linksOfGlyphs hb).1

/-- What shows nothing has no links. -/
theorem linksOfGlyphs_eq_nil (h : gs.flatMap Glyph.text = []) :
    linksOfGlyphs text fresh generated gs = [] := by
  refine List.eq_nil_iff_forall_not_mem.mpr fun l hl => ?_
  obtain ⟨hlo, hhi⟩ := bounds_linksOfGlyphs hl
  rw [h] at hhi
  exact lt_irrefl _ (hlo.trans_lt hhi)

/-- Of two kept characters shown one behind the other, the second follows the first in the text. -/
def Follows : Glyph → Glyph → Prop
  | .old j d, .old k _ => k = j + d.utf8Size
  | _, _ => True

/-- Each glyph that is kept is a character of the text. -/
def Genuine (text : Text) (gs : List Glyph) : Prop :=
  ∀ k c, .old k c ∈ gs → ∃ p q, text = p ++ c :: q ∧ Text.size p = k

theorem Genuine.place_step (h : Genuine text gs) (hg : .old k c ∈ gs) :
    place text (k + c.utf8Size) = (place text k).step c := by
  obtain ⟨p, q, rfl, rfl⟩ := h k c hg
  have hsize : Text.size p + c.utf8Size = Text.size (p ++ [c]) := by simp
  rw [hsize, List.append_cons, place_size, List.append_assoc, place_size, Position.advance_append]
  rfl

/-- A kept character on a line is reached from the last link before it. -/
theorem exists_link (hchain : (before ++ [.old k c]).IsChain Follows)
    (hgenuine : Genuine text (before ++ [.old k c])) (hc : c ≠ '\n') :
    ∃ l, (linksOfGlyphs text true .zero (before ++ [.old k c])).getLast? = some l ∧
      l.token.Leads (Position.zero.advance (before.flatMap Glyph.text)) (place text k) := by
  have hfresh : ∀ {before : List Glyph} {k : Nat} {c : Char}, c ≠ '\n' →
      freshBehind true before = true →
      ∃ l, (linksOfGlyphs text true .zero (before ++ [.old k c])).getLast? = some l ∧
        l.token.Leads (Position.zero.advance (before.flatMap Glyph.text)) (place text k) := by
    intro before k c hc hfresh
    rw [linksOfGlyphs_concat, hfresh, Glyph.link?, if_pos ⟨rfl, hc⟩]
    exact ⟨_, List.getLast?_concat, .self _⟩
  induction before using List.reverseRecOn generalizing k c with
  | nil => exact hfresh hc rfl
  | append_singleton init g ih =>
    cases hbreaks : g.breaks with
    | true => exact hfresh hc (by rw [freshBehind_concat, hbreaks])
    | false =>
      obtain ⟨j, d, rfl, hd⟩ := Glyph.breaks_eq_false_iff.mp hbreaks
      rw [← List.append_cons, List.isChain_append_cons_cons] at hchain
      have hfollows : k = j + d.utf8Size := hchain.2.1
      obtain ⟨l, hlast, hleads⟩ := ih hchain.1
        (fun k c hg => hgenuine k c (List.mem_append_left _ hg)) hd
      have hplace : place text k = (place text j).step d := by
        rw [hfollows]
        exact hgenuine.place_step (by simp)
      refine ⟨l, ?_, ?_⟩
      · rw [linksOfGlyphs_concat, freshBehind_concat, hbreaks, Glyph.link?, if_neg (by simp)]
        simpa using hlast
      · rw [hplace, List.flatMap_append, Position.advance_append]
        exact hleads.step hd

/-- A line feed behind a kept character of its line is reached from the last link before that. -/
theorem exists_link_of_lineFeed (hchain : (init ++ [.old j d]).IsChain Follows)
    (hgenuine : Genuine text (init ++ [.old j d])) (hd : d ≠ '\n')
    (hbetween : between.flatMap Glyph.text = []) (k : Nat) :
    ∃ l, (linksOfGlyphs text true .zero (init ++ .old j d :: between ++ [.old k '\n'])).getLast? =
        some l ∧
      l.token.Leads (Position.zero.advance ((init ++ .old j d :: between).flatMap Glyph.text))
        (place text (j + d.utf8Size)) := by
  obtain ⟨l, hlast, hleads⟩ := exists_link hchain hgenuine hd
  refine ⟨l, ?_, ?_⟩
  · have hnone : ∀ fresh generated,
        linksOfGlyphs text fresh generated (between ++ [.old k '\n']) = [] := by
      intro fresh generated
      rw [linksOfGlyphs_concat, linksOfGlyphs_eq_nil hbetween, Glyph.link?, if_neg (by simp)]
      rfl
    rw [List.append_assoc, List.cons_append, List.append_cons, linksOfGlyphs_append, hnone,
      List.append_nil, hlast]
  · rw [hgenuine.place_step (by simp), List.append_cons, List.flatMap_append, hbetween,
      List.append_nil, List.flatMap_append, Position.advance_append]
    exact hleads.step hd

/-- The character is no line feed, or shown right behind the one that it follows in the text, on
the same line. -/
def Linked (before : List Glyph) (k : Nat) (c : Char) : Prop :=
  c ≠ '\n' ∨ ∃ init j d between, before = init ++ .old j d :: between ∧ d ≠ '\n' ∧
    k = j + d.utf8Size ∧ between.flatMap Glyph.text = []

/-- Such a character is traced to its place. -/
theorem traces_of_linked (hgs : gs = before ++ .old k c :: after) (hchain : gs.IsChain Follows)
    (hgenuine : Genuine text gs) (hlinked : Linked before k c) :
    Traces ((linksOfGlyphs text true .zero gs).map Link.token)
      (Position.zero.advance (before.flatMap Glyph.text)) (place text k) := by
  subst hgs
  rw [List.append_cons] at hchain hgenuine ⊢
  have hchain := hchain.left_of_append
  have hgenuine : Genuine text (before ++ [.old k c]) := fun k c hg =>
    hgenuine k c (List.mem_append_left _ hg)
  obtain ⟨l, hlast, hleads⟩ : ∃ l,
      (linksOfGlyphs text true .zero (before ++ [.old k c])).getLast? = some l ∧
        l.token.Leads (Position.zero.advance (before.flatMap Glyph.text)) (place text k) := by
    by_cases hc : c = '\n'
    · subst hc
      obtain ⟨init, j, d, between, rfl, hd, rfl, hbetween⟩ := hlinked.resolve_left fun h => h rfl
      rw [List.append_assoc, List.cons_append, List.append_cons] at hchain hgenuine
      exact exists_link_of_lineFeed hchain.left_of_append
        (fun k c hg => hgenuine k c (List.mem_append_left _ hg)) hd hbetween _
    · exact exists_link hchain hgenuine hc
  -- Up to the character there is no link behind its place, and after it no other.
  have hbefore : ∀ l ∈ linksOfGlyphs text true .zero (before ++ [.old k c]),
      l.generated ≤ Position.zero.advance (before.flatMap Glyph.text) := by
    intro l hl
    rw [linksOfGlyphs_concat] at hl
    rcases List.mem_append.mp hl with hl | hl
    · exact (bounds_linksOfGlyphs hl).2.le
    · exact (Glyph.of_link? (Option.mem_toList.mp hl)).1.le
  have hafter : ∀ l ∈ linksOfGlyphs text (freshBehind true (before ++ [.old k c]))
      (Position.zero.advance ((before ++ [Glyph.old k c]).flatMap Glyph.text)) after,
      ¬ l.generated ≤ Position.zero.advance (before.flatMap Glyph.text) := by
    intro l hl
    refine ((Position.lt_step _ c).trans_le ?_).not_ge
    simpa [Glyph.text] using (bounds_linksOfGlyphs hl).1
  refine ⟨l.token, ?_, hleads⟩
  rw [linksOfGlyphs_append, List.map_append, SourceMap.tokenAt_append
    (List.forall_mem_map.mpr hbefore) (List.forall_mem_map.mpr hafter), List.getLast?_map, hlast,
    Option.map_some]

/-- The glyphs of kept text are linked as its lines are. -/
theorem linksOfLines_eq (p t q : Text) (fresh : Bool) (generated : Position)
    (htext : text = p ++ (t ++ q)) :
    linksOfLines fresh generated (Position.zero.advance p) t =
      linksOfGlyphs text fresh generated (olds p.size t) := by
  induction t generalizing p fresh generated with
  | nil => rfl
  | cons c t ih =>
    have hstep : (Position.zero.advance p).step c = Position.zero.advance (p ++ [c]) := by
      rw [Position.advance_append]
      rfl
    have hsize : Text.size p + c.utf8Size = Text.size (p ++ [c]) := by simp
    have hplace : place text p.size = Position.zero.advance p := by rw [htext, place_size]
    have hrest := fun fresh generated => ih (p ++ [c]) fresh generated (by simp [htext])
    rw [linksOfLines, olds, linksOfGlyphs, hstep, hsize]
    simp only [hrest, Glyph.link?, Glyph.breaks, Glyph.text, hplace]
    by_cases hc : c = '\n'
    · simp [hc]
    · cases fresh <;> simp [hc]

/-- The segment is a part of the text that starts at the segment's offset and origin. -/
def Stands (text : Text) (origin : Nat → Position) (s : Segment) : Prop :=
  ∃ p q, text = p ++ (s.text ++ q) ∧ Text.size p = s.start ∧
    origin s.start = Position.zero.advance p

theorem linksOfGlyphs_segment (h : Stands text origin s) (fresh : Bool) (generated : Position)
    (gs : List Glyph) : linksOfGlyphs text fresh generated (s.glyphs ++ gs) =
      s.links (generated.advance s.lead) (origin s.start) ++ linksOfGlyphs text true
        (((generated.advance s.lead).advance s.body).advance s.trail) gs := by
  obtain ⟨p, q, htext, hsize, horigin⟩ := h
  have hlines := linksOfLines_eq p s.text q true (generated.advance s.lead) htext
  have hplace : place text s.start = origin s.start := by rw [horigin, ← hsize, htext, place_size]
  rw [← horigin, hsize] at hlines
  unfold Segment.glyphs Segment.links Segment.body
  cases hc : s.content with
  | none =>
    rw [List.append_assoc, List.cons_append, linksOfGlyphs, linksOfGlyphs_append, hlines, olds_text]
    rfl
  | some content =>
    cases content with
    | nil => rfl
    | cons c content =>
      change _ :: _ = _ :: _
      rw [hplace]
      rfl

theorem linksOf_eq {l : List Segment} (h : ∀ s ∈ l, Stands text origin s) (fresh : Bool)
    (generated : Position) (trail : Text) :
    linksOfGlyphs text fresh generated (l.flatMap Segment.glyphs ++ [.inserted trail]) =
      linksOf origin generated l := by
  induction l generalizing fresh generated with
  | nil => rfl
  | cons s l ih =>
    rw [List.flatMap_cons, List.append_assoc, linksOfGlyphs_segment (h s (by simp)), linksOf,
      ih fun r hr => h r (by simp [hr])]

theorem follows_inserted (g : Glyph) (content : Text) : Follows g (.inserted content) := by
  cases g <;> trivial

theorem chain_inserted_cons (h : gs.IsChain Follows) (content : Text) :
    (Glyph.inserted content :: gs).IsChain Follows :=
  List.isChain_cons.mpr ⟨fun g _ => by cases g <;> trivial, h⟩

theorem chain_concat_inserted (h : gs.IsChain Follows) (content : Text) :
    (gs ++ [Glyph.inserted content]).IsChain Follows := by
  refine List.isChain_append.mpr ⟨h, .singleton _, fun g _ g' hg => ?_⟩
  obtain rfl := Option.some.inj hg
  exact follows_inserted g content

theorem chain_olds (start : Nat) (t : Text) : (olds start t).IsChain Follows := by
  induction t generalizing start with
  | nil => exact .nil
  | cons c t ih =>
    refine List.isChain_cons.mpr ⟨fun g hg => ?_, ih _⟩
    cases t with
    | nil => cases hg
    | cons d t =>
      obtain rfl := Option.some.inj hg
      rfl

theorem Segment.chain_glyphs (s : Segment) : s.glyphs.IsChain Follows := by
  unfold glyphs
  refine chain_concat_inserted (chain_inserted_cons ?_ _) _
  cases s.content with
  | none => exact chain_olds _ _
  | some content => exact .singleton _

theorem chain_glyphs (w : Weave) (l : List Segment) : (w.glyphs l).IsChain Follows := by
  refine chain_concat_inserted (chain_inserted_cons ?_ _) _
  induction l with
  | nil => exact .nil
  | cons s l ih =>
    rw [List.flatMap_cons]
    refine List.isChain_append.mpr ⟨s.chain_glyphs, ih, fun g hg g' _ => ?_⟩
    have hlast : s.glyphs.getLast? = some (.inserted s.trail) := List.getLast?_concat
    obtain rfl := Option.some.inj (hlast.symm.trans hg)
    cases g' <;> trivial

/-- Segments that tile a text stand where they say. -/
theorem Tiles.exists_before (h : Tiles a segments text) (hs : s ∈ segments) :
    ∃ p q, text = p ++ (s.text ++ q) ∧ a + Text.size p = s.start ∧
      (segments.takeWhile (·.start ≠ s.start)).flatMap (·.text) = p := by
  induction segments generalizing a text with
  | nil => cases hs
  | cons r segments ih =>
    obtain ⟨rfl, hr, rest, rfl, htiles⟩ := h
    rcases List.mem_cons.mp hs with rfl | hs
    · exact ⟨[], rest, rfl, rfl, by simp⟩
    · obtain ⟨p, q, rfl, hp, hbefore⟩ := ih htiles hs
      have hne : r.start ≠ s.start := by
        have := Segment.start_lt_stop hr
        have := (htiles.bounds s hs).1
        omega
      refine ⟨r.text ++ p, q, by simp, ?_, ?_⟩
      · rw [Text.size_append, ← Nat.add_assoc]
        exact hp
      · rw [List.takeWhile_cons_of_pos (by simpa using hne), List.flatMap_cons, hbefore]

namespace Accepted

/-- What is shown stands where it says. -/
theorem stands (run : Accepted text edits o) (hshown : o.weave.shown = some l) (hs : s ∈ l) :
    Stands text o.weave.origin s := by
  have hmem := Weave.shown_subset hshown hs
  by_cases htext : text = []
  · subst htext
    have hsegments := run.weave_of_nil.1
    rw [hsegments, List.mem_singleton] at hmem
    subst hmem
    refine ⟨[], [], rfl, rfl, ?_⟩
    simp [Weave.origin, hsegments]
  · obtain ⟨p, q, he, hp, hbefore⟩ := (run.tiles htext).exists_before hmem
    rw [Nat.zero_add] at hp
    exact ⟨p, q, he, hp, by rw [Weave.origin, hbefore]⟩

theorem links_eq (run : Accepted text edits o) (hshown : o.weave.shown = some l) :
    o.weave.links = some (linksOfGlyphs text true .zero (o.weave.glyphs l)) := by
  have hlinks := linksOf_eq (fun s hs => run.stands hshown hs) true
    (Position.zero.advance o.weave.lead) o.weave.trail
  rw [Weave.links, hshown, Option.map_some, ← hlinks]
  rfl

theorem genuine (run : Accepted text edits o) (hshown : o.weave.shown = some l) :
    Genuine text (o.weave.glyphs l) := by
  intro k c hg
  obtain ⟨s, hs, hsg⟩ : ∃ s ∈ l, .old k c ∈ s.glyphs := by
    simpa [Weave.glyphs] using hg
  obtain ⟨p, q, htext, hsize, -⟩ := run.stands hshown hs
  obtain ⟨x, d, y, hst, he⟩ := mem_olds (Segment.mem_glyphs_old.mp hsg).2
  obtain ⟨rfl, rfl⟩ := Glyph.old.inj he
  exact ⟨p ++ x, y ++ q, by simp [htext, hst], by rw [Text.size_append, hsize]⟩

/-- A run without moves in place leaves something to show. -/
theorem exists_shown (run : Accepted text edits o) (hun : Unnested edits)
    (hshifts : Shifts text edits) : ∃ l, o.weave.shown = some l := by
  by_cases htext : text = []
  · subst htext
    exact ⟨_, run.shown_of_nil⟩
  · obtain ⟨l, h⟩ := run.arranged htext hun hshifts
    exact ⟨l, h.shows.shown_eq⟩

end Accepted

/-- What the tokens of an overlay's source map say of the glyphs of its rendered text. -/
structure Explains (text : Text) (o : Overlay) (gs : List Glyph) (tokens : List Token) : Prop where
  rendered : o.render = some (gs.flatMap Glyph.text)
  increasing : tokens.Pairwise fun a b => a.generated < b.generated
  file_eq : ∀ t ∈ tokens, t.file = 0
  traces : ∀ before k c after, gs = before ++ .old k c :: after →
    ∃ p q, text = p ++ c :: q ∧ Text.size p = k ∧ (Linked before k c → Traces tokens
      (Position.zero.advance (before.flatMap Glyph.text)) (Position.zero.advance p))

/-- The source map of an overlay that is shown. -/
theorem Accepted.explains (run : Accepted text edits o) (source : Text)
    (hshown : o.weave.shown = some l) : ∃ m, o.sourceMap source = some m ∧
      ∃ tokens, SourceMap.decode (SourceMap.encode m.links) = some tokens ∧
        Explains text o (o.weave.glyphs l) tokens := by
  have hgenuine := run.genuine hshown
  have hincreasing : (linksOfGlyphs text true .zero (o.weave.glyphs l)).Pairwise
      fun a b => a.generated < b.generated := increasing_linksOfGlyphs true .zero _
  refine ⟨⟨source, o.text, linksOfGlyphs text true .zero (o.weave.glyphs l)⟩, ?_,
    (linksOfGlyphs text true .zero (o.weave.glyphs l)).map Link.token,
    SourceMap.decode_encode hincreasing, render_of_glyphs (glyphs_of_shown hshown), ?_, ?_, ?_⟩
  · rw [sourceMap, run.links_eq hshown, Option.map_some]
  · exact List.pairwise_map.mpr hincreasing
  · intro t ht
    obtain ⟨l, _, rfl⟩ := List.mem_map.mp ht
    rfl
  · intro before k c after hgs
    obtain ⟨p, q, rfl, rfl⟩ := hgenuine k c (by simp [hgs])
    refine ⟨p, q, rfl, rfl, fun hlinked => ?_⟩
    rw [← place_size p (c :: q)]
    exact traces_of_linked hgs (chain_glyphs _ _) hgenuine hlinked

/-- After edits of which no move leads into a moved span, there is a source map if none of them moves
a span to where it stands, or if the links of the overlay come to an end. Wherever there is one, it
can be read when it is written, and it traces each kept character to its place, line feeds if they
are shown right behind the character before them. -/
theorem sourceMap_explains (source : Text) (happlied : (ofText text).applyAll edits = .ok o)
    (hun : Unnested edits) :
    (Shifts text edits → ∃ m, o.sourceMap source = some m) ∧
      (o.weave.Ends → ∃ m, o.sourceMap source = some m) ∧
        ∀ m, o.sourceMap source = some m → ∃ gs tokens, o.glyphs = some gs ∧
          SourceMap.decode (SourceMap.encode m.links) = some tokens ∧
            Explains text o gs tokens := by
  have run := accepted_of_applyAll happlied
  have hmap : (∃ l, o.weave.shown = some l) → ∃ m, o.sourceMap source = some m := by
    rintro ⟨l, hshown⟩
    obtain ⟨m, hm, -⟩ := run.explains source hshown
    exact ⟨m, hm⟩
  refine ⟨fun hshifts => hmap (run.exists_shown hun hshifts),
    fun hends => hmap (run.exists_shown_of_ends hends), fun m hm => ?_⟩
  obtain ⟨links, hlinks, -⟩ := Option.map_eq_some_iff.mp hm
  obtain ⟨l, hshown, -⟩ := Option.map_eq_some_iff.mp hlinks
  obtain ⟨m', hm', tokens, hdecode, hexplains⟩ := run.explains source hshown
  obtain rfl := Option.some.inj (hm.symm.trans hm')
  exact ⟨_, tokens, glyphs_of_shown hshown, hdecode, hexplains⟩

/-- An insertion, an update and a move, with line feeds and a character of two UTF-16 units. -/
def brokenLines : List Edit :=
  [.insert .left .back 1 ['\n'], .update ⟨3, 4⟩ ['x', '\n', '😀'], .relocate ⟨9, 10⟩ 0]

theorem brokenLines_explained : ∃ o m,
    (ofText "ab\ncd😀e".toList).applyAll brokenLines = .ok o ∧ Unnested brokenLines ∧
    o.sourceMap "m.js".toList = some m ∧ ∃ gs tokens, o.glyphs = some gs ∧
      SourceMap.decode (SourceMap.encode m.links) = some tokens ∧
      Explains "ab\ncd😀e".toList o gs tokens := by
  obtain ⟨o, ho⟩ : ∃ o, (ofText "ab\ncd😀e".toList).applyAll brokenLines = .ok o := ⟨_, rfl⟩
  have hun : Unnested brokenLines := by decide +kernel
  have hshifts : Shifts "ab\ncd😀e".toList brokenLines := by
    refine Tidy.shifts (((Tidy.nil.concat (e := .insert .left .back 1 ['\n']) ?_ ?_).concat
      (e := .update ⟨3, 4⟩ ['x', '\n', '😀']) ?_ ?_).concat (e := .relocate ⟨9, 10⟩ 0) ?_ ?_) <;>
    decide +kernel
  obtain ⟨hexists, -, hexplains⟩ := sourceMap_explains "m.js".toList ho hun
  obtain ⟨m, hm⟩ := hexists hshifts
  exact ⟨o, m, ho, hun, hm, hexplains m hm⟩

/-- A line feed in a text that nobody edits has no token on its line. -/
theorem lineFeed_not_traced : ∃ o m, (ofText ['\n']).applyAll [] = .ok o ∧ Unnested [] ∧
    o.glyphs = some ([.inserted [], .inserted []] ++ .old 0 '\n' :: [.inserted [], .inserted []]) ∧
    o.sourceMap [] = some m ∧
    ∃ tokens, SourceMap.decode (SourceMap.encode m.links) = some tokens ∧
      ¬ Traces tokens .zero .zero := by
  refine ⟨_, _, rfl, by decide, rfl, rfl, [], by decide +kernel, ?_⟩
  rintro ⟨t, ht, -⟩
  cases ht

end GadgetBuild.Overlay
