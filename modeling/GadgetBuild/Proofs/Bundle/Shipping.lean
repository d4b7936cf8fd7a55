import Mathlib.Data.List.Forall2
import GadgetBuild.Proofs.Bundle.Atomicity

/-!
What is shipped of a bundle. A build in one format ships every file. A build in two formats ships
every chunk with exactly one of them, the entries with the one and the chunks that they load with
the other, so that the two together are the whole bundle.
-/

namespace GadgetBuild

namespace Output

/-- Files that are no chunks are assets. -/
def isChunk : Output → Bool
  | .chunk _ _ _ _ _ => true
  | .asset _ _ => false

/-- A file, and the same as it is shipped: the code of an entry stands in the template, and
everything else is as it was. -/
inductive Becomes (s : Settings) : Output → Output → Prop
  | entry (h : Template.wrap s code = .ok wrapped) :
    Becomes s (.chunk name filename true code imports) (.chunk name filename true wrapped imports)
  | chunk : Becomes s (.chunk name filename false code imports)
      (.chunk name filename false code imports)
  | asset : Becomes s (.asset filename source) (.asset filename source)

theorem Becomes.of_not_entry (h : ∀ name filename code imports,
    output = .chunk name filename true code imports → False) : Becomes s output output := by
  cases output with
  | asset filename source => exact .asset
  | chunk name filename isEntry code imports =>
    cases isEntry with
    | false => exact .chunk
    | true => exact (h name filename code imports rfl).elim

end Output

namespace Bundle

variable {s : Settings} {b : Bundle}

/-- The files of one bundle are those of the other as they are shipped, with the same keys and in
the same order. -/
def Becomes (s : Settings) (b whole : Bundle) : Prop :=
  List.Forall₂ (fun o w => o.1 = w.1 ∧ Output.Becomes s o.2 w.2) b whole

def chunks (b : Bundle) : Bundle :=
  b.filter (·.2.isChunk)

def assets (b : Bundle) : Bundle :=
  b.filter (!·.2.isChunk)

/-- The builds of a bundle ship the files of `whole`. -/
structure ShippedOnce (s : Settings) (b whole : Bundle) : Prop where
  becomes : Becomes s b whole
  succeeds : ∀ format, (finish s format b).2 = .ok ()
  ordered : ∀ format, (finish s format b).1.Sublist whole
  assets : ∀ format, (finish s format b).1.assets = whole.assets
  all : s.esmChunks = false → ∀ format, (finish s format b).1 = whole
  entries : s.esmChunks = true → (finish s .cjs b).1.chunks = whole.filter (·.2.isEntry)
  others : s.esmChunks = true →
    (finish s .esm b).1.chunks = whole.chunks.filter (!·.2.isEntry)
  parted : s.esmChunks = true →
    ((finish s .cjs b).1.chunks ++ (finish s .esm b).1.chunks).Perm whole.chunks

theorem becomes_of_wrapEntries (h : (wrapEntries s b).2 = .ok ()) :
    Becomes s b (wrapEntries s b).1 := by
  fun_induction wrapEntries s b with
  | case1 => exact .nil
  | case2 => cases h
  | case3 key name filename code imports rest wrapped hwrap others result hrest ih =>
    rw [hrest] at ih
    exact .cons ⟨rfl, .entry hwrap⟩ (ih h)
  | case4 output rest hother others result hrest ih =>
    obtain ⟨key, output⟩ := output
    rw [hrest] at ih
    refine .cons ⟨rfl, .of_not_entry fun name filename code imports he => ?_⟩ (ih h)
    exact hother key name filename code imports (he ▸ rfl)

theorem finish_of_wrapEntries (h : (wrapEntries s b).2 = .ok ()) (format : Format) :
    finish s format b = (if s.esmChunks then (wrapEntries s b).1.filter (isShipped format ·.2)
      else (wrapEntries s b).1, .ok ()) := by
  rcases hwhole : wrapEntries s b with ⟨whole, result⟩
  rw [hwhole] at h
  obtain rfl : result = .ok () := h
  unfold finish
  rw [hwhole]

theorem isShipped_cjs (o : Output) : (o.isChunk && isShipped .cjs o) = o.isEntry := by
  cases o <;> rfl

theorem isShipped_esm (o : Output) : isShipped .esm o = !o.isEntry := by
  cases o <;> rfl

theorem isShipped_of_asset (format : Format) {o : Output} (h : o.isChunk = false) :
    isShipped format o = true := by
  cases o with
  | chunk name filename isEntry code imports => cases h
  | asset filename source => rfl

theorem assets_shipped (format : Format) (b : Bundle) :
    assets (b.filter (isShipped format ·.2)) = b.assets := by
  unfold assets
  rw [List.filter_filter]
  refine List.filter_congr fun o _ => ?_
  cases hchunk : o.2.isChunk with
  | true => rfl
  | false => rw [isShipped_of_asset format hchunk]; rfl

theorem chunks_shipped_cjs (b : Bundle) :
    chunks (b.filter (isShipped .cjs ·.2)) = b.filter (·.2.isEntry) := by
  unfold chunks
  rw [List.filter_filter]
  exact List.filter_congr fun o _ => isShipped_cjs o.2

theorem chunks_shipped_esm (b : Bundle) :
    chunks (b.filter (isShipped .esm ·.2)) = b.chunks.filter (!·.2.isEntry) := by
  unfold chunks
  rw [List.filter_filter, List.filter_filter]
  refine List.filter_congr fun o _ => ?_
  rw [isShipped_esm, Bool.and_comm]

/-- An entry is a chunk. -/
theorem filter_isEntry_chunks (b : Bundle) :
    b.chunks.filter (·.2.isEntry) = b.filter (·.2.isEntry) := by
  unfold chunks
  rw [List.filter_filter]
  refine List.filter_congr fun o _ => ?_
  obtain ⟨key, o⟩ := o
  cases o with
  | chunk name filename isEntry code imports => exact Bool.and_true isEntry
  | asset filename source => rfl

/-- Where a bundle is finished in one format it is finished in the other too, and the files stay
what they were but for the template around the entries. A build in one format ships all of them, and
a build in two ships the assets with both and each chunk with exactly one. -/
theorem finish_ships_once {format : Format} (h : (finish s format b).2 = .ok ()) :
    ∃ whole, ShippedOnce s b whole := by
  rw [finish_result] at h
  have hfinish := finish_of_wrapEntries h
  refine ⟨(wrapEntries s b).1, becomes_of_wrapEntries h, fun format => ?_, fun format => ?_,
    fun format => ?_, fun hone format => ?_, fun htwo => ?_, fun htwo => ?_, fun htwo => ?_⟩
  · rw [hfinish]
  · rw [hfinish]
    cases s.esmChunks with
    | false => exact .refl _
    | true => exact List.filter_sublist
  · rw [hfinish]
    cases s.esmChunks with
    | false => rfl
    | true => exact assets_shipped format _
  · rw [hfinish, hone]
    rfl
  · rw [hfinish, htwo]
    exact chunks_shipped_cjs _
  · rw [hfinish, htwo]
    exact chunks_shipped_esm _
  · rw [hfinish, hfinish, htwo]
    simp only [if_true]
    rw [chunks_shipped_cjs, chunks_shipped_esm, ← filter_isEntry_chunks]
    exact List.filter_append_perm _ _

/-- Settings of a build in two formats. -/
def twoFormats : Settings :=
  Options.settings
    { name := "gadget".toList, entry := "main.ts".toList, template := some "\t'script';".toList,
      banner := none, footer := none, modules := none, ignoreBuildOptions := none,
      debugCookieAge := none, esmChunks := some true, esmUnhoistChunks := none, baseUrl := none }

/-- An asset, an entry and a chunk that it loads. -/
def threeFiles : Bundle :=
  [("style.css".toList, .asset "style.css".toList "a".toList),
    ("gadget.js".toList, .chunk "gadget".toList "gadget.js".toList true "'script'".toList []),
    ("heavy.js".toList, .chunk "heavy".toList "heavy.js".toList false "b()".toList [])]

theorem threeFiles_shipped_once :
    (finish twoFormats .cjs threeFiles).2 = .ok () ∧
      (finish twoFormats .cjs threeFiles).1.map (·.1) =
        ["style.css".toList, "gadget.js".toList] ∧
      (finish twoFormats .esm threeFiles).1.map (·.1) =
        ["style.css".toList, "heavy.js".toList] ∧
      ∃ whole, ShippedOnce twoFormats threeFiles whole := by
  have hok : (finish twoFormats .cjs threeFiles).2 = .ok () := by decide +kernel
  exact ⟨hok, by decide +kernel, by decide +kernel, finish_ships_once hok⟩

end Bundle
end GadgetBuild
