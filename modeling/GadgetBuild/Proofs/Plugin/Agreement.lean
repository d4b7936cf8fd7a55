import GadgetBuild.Proofs.Import.Alone
import GadgetBuild.Proofs.Plugin.Externals

/-!
The hooks of a gadget's plugin pass modules on by their ids. They agree on what an id stands for:
the one that a source resolves to loads the module of that name, and an import from it requires that
module, also where the id was served.
-/

namespace GadgetBuild

namespace VirtualModule

/-- The module that code waits for, and the module that it then takes. -/
def requested? (code : Text) : Option (Text × Text) := do
  let t ← Text.after? "(await mw.loader.using(".toList (code.dropWhile (· ≠ '('))
  let (awaited, t) ← Json.literal? t
  let t ← Text.after? "))(".toList t
  let (taken, t) ← Json.literal? t
  let _ ← Text.after? ");\n".toList t
  return (awaited, taken)

theorem cookie_no_bracket (age : Option Nat) : '(' ∉ cookie age := by
  intro h
  cases age with
  | none => cases h
  | some n =>
    unfold cookie at h
    dsimp only at h
    rcases List.mem_append.mp h with h | h
    · rcases List.mem_append.mp h with h | h
      · revert h
        decide
      · exact Text.notMem_ofNat (by decide) n h
    · revert h
      decide

/-- The text of the call, cut where the reader cuts it. -/
theorem render_eq (name : Text) (age : Option Nat) : ∃ rest, render name age =
    (cookie age ++ "const __mw_module = ".toList) ++ ("(await mw.loader.using(".toList ++
      (Json.quote name ++ ("))(".toList ++ (Json.quote name ++ (");\n".toList ++ rest))))) := by
  have hcall : "const __mw_module = (await mw.loader.using(".toList =
      "const __mw_module = ".toList ++ "(await mw.loader.using(".toList := by
    decide
  refine ⟨"export default __mw_module;\n".toList ++
    (if name = Externals.vue then debugModeCheck age else []), ?_⟩
  unfold render
  rw [hcall]
  generalize "const __mw_module = ".toList = constant
  generalize "(await mw.loader.using(".toList = call
  generalize "))(".toList = middle
  generalize ");\n".toList = close
  generalize "export default __mw_module;\n".toList = default
  simp only [List.append_assoc]

theorem requested?_render (name : Text) (age : Option Nat) :
    requested? (render name age) = some (name, name) := by
  obtain ⟨rest, hrest⟩ := render_eq name age
  have hbefore : '(' ∉ cookie age ++ "const __mw_module = ".toList := by
    rw [List.mem_append, not_or]
    exact ⟨cookie_no_bracket age, by decide⟩
  obtain ⟨call, hcall⟩ : ∃ call, "(await mw.loader.using(".toList = '(' :: call := ⟨_, rfl⟩
  rw [requested?, hrest, hcall, List.cons_append,
    Text.dropWhile_append_cons (Text.all_ne hbefore) (decide_eq_false (by simp)),
    ← List.cons_append, Text.after?_append]
  simp only [Option.bind_eq_bind, Option.bind_some, Json.literal?_quote, Text.after?_append, pure]

end VirtualModule

namespace Plugin

open ExternalModule (IsLead)

/-- The hooks take an id for that of a module. -/
structure Agrees (st : Settings) (name id : Text) : Prop where
  recovered : ExternalModule.ofVirtualId? id = some ⟨name⟩
  loaded : (gadget st).load id = some (VirtualModule.render name st.debugCookieAge)
  transformed : ∀ importers importer, importer ∈ importers → ∀ k : Import.Clause,
    ∃ out, (gadget st).transform importer (k.importFrom id) importers = .ok (some out) ∧
      Import.required? out.code = some name

theorem agrees_append (st : Settings) {lead name : Text} (hlead : IsLead lead) (hne : name ≠ [])
    (hdouble : '"' ∉ name) (hsingle : '\'' ∉ name) : Agrees st name (lead ++ name) where
  recovered := ExternalModule.ofVirtualId?_append hlead hne
  loaded := by
    change (ExternalModule.ofVirtualId? (lead ++ name)).map _ = _
    rw [ExternalModule.ofVirtualId?_append hlead hne]
    rfl
  transformed importers importer himporter k := by
    obtain ⟨out, hout, hrequired⟩ := k.exists_required importer hlead hne hdouble hsingle
    refine ⟨out, ?_, hrequired⟩
    change (if importer ∈ importers then _ else _) = _
    rw [if_pos himporter, hout]

/-- Where a source resolves to an id, the hooks take this id for that of a module with the name of
the source, and the id as it is served too. Nothing else is taken for the id of a module. -/
theorem hooks_agree (st : Settings) (importers : Importers) (importer : Option Text)
    {source id : Text} (hne : source ≠ []) (hdouble : '"' ∉ source) (hsingle : '\'' ∉ source)
    (hresolve : ((gadget st).resolve source importer importers).2 = some id) :
    ExternalModule.virtualId ⟨source⟩ = id ∧
      (∀ i ∈ importer, i ∈ ((gadget st).resolve source importer importers).1) ∧
      Agrees st source id ∧ Agrees st source (servedLead ++ source) ∧
      VirtualModule.requested? (VirtualModule.render source st.debugCookieAge) =
        some (source, source) ∧
      ∀ x name, ExternalModule.nameOf? x = some name ↔
        name ≠ [] ∧ (x = virtualLead ++ name ∨ x = servedLead ++ name) := by
  obtain ⟨m, hm, rfl⟩ :=
    Option.map_eq_some_iff.mp ((resolveExternal_id importers).symm.trans hresolve)
  obtain ⟨hcontains, rfl⟩ := Externals.resolve?_eq_some_iff.mp hm
  refine ⟨rfl, fun i hi => mem_resolveExternal.mpr (.inr ⟨hcontains, hi⟩),
    agrees_append st (.inl rfl) hne hdouble hsingle,
    agrees_append st (.inr rfl) hne hdouble hsingle,
    VirtualModule.requested?_render source st.debugCookieAge, fun x name => ?_⟩
  rw [ExternalModule.nameOf?_eq_some_iff]
  simp only [IsLead, or_and_right, exists_or, exists_eq_left]

/-- Settings under which Vue is external, with its scope. -/
def vueSettings : Settings :=
  Options.settings
    { name := "gadget".toList, entry := "src/main.ts".toList, template := none, banner := none,
      footer := none, modules := some ["vue".toList], ignoreBuildOptions := none,
      debugCookieAge := some 60, esmChunks := none, esmUnhoistChunks := none, baseUrl := none }

/-- A package in the scope of Vue whose name has all that is awkward in a literal or an id. -/
def awkwardSource : Text := "@vue/\x00mw-userscript:\\ a\n".toList

/-- The names `a` as `b`, and `as`, with a comma behind. -/
def aliasClause : Import.Clause where
  first :=
    { before := [' ']
      name := ['a']
      localName := some
        { beforeAs := [' ']
          behindAs := ['\n']
          name := ['b']
          beforeAs_gap := ⟨by simp, Import.isBlank_space⟩
          behindAs_gap := ⟨by simp, List.forall_mem_singleton.mpr rfl⟩
          isName := by decide }
      behind := []
      before_blank := Import.isBlank_space
      isName := by decide
      behind_blank := by simp }
  others := [
    { before := [' ']
      name := Import.asWord
      localName := none
      behind := []
      before_blank := Import.isBlank_space
      isName := Import.isName_asWord
      behind_blank := by simp }]
  closing := some [' ']
  closing_blank := by
    rintro t ⟨⟩
    exact Import.isBlank_space

theorem awkwardSource_agrees :
    ((gadget vueSettings).resolve awkwardSource (some "/m.js".toList) []).2 =
        some (virtualLead ++ awkwardSource) ∧
      awkwardSource ≠ [] ∧ '"' ∉ awkwardSource ∧ '\'' ∉ awkwardSource ∧
      aliasClause.interior = " a as\nb, as, ".toList ∧
      ∃ out, (gadget vueSettings).transform "/m.js".toList
          (aliasClause.importFrom (servedLead ++ awkwardSource)) ["/m.js".toList] =
            .ok (some out) ∧
        Import.required? out.code = some awkwardSource := by
  have hresolve : ((gadget vueSettings).resolve awkwardSource (some "/m.js".toList) []).2 =
      some (virtualLead ++ awkwardSource) := by
    decide +kernel
  have hne : awkwardSource ≠ [] := by decide +kernel
  have hdouble : '"' ∉ awkwardSource := by decide +kernel
  have hsingle : '\'' ∉ awkwardSource := by decide +kernel
  obtain ⟨-, -, -, hagrees, -, -⟩ :=
    hooks_agree vueSettings [] (some "/m.js".toList) hne hdouble hsingle hresolve
  exact ⟨hresolve, hne, hdouble, hsingle, by decide +kernel,
    hagrees.transformed _ _ List.mem_cons_self aliasClause⟩

end Plugin
end GadgetBuild
