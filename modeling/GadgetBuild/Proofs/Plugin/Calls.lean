import GadgetBuild.Proofs.Json.Splicing
import GadgetBuild.Proofs.Plugin.Agreement

/-!
The calls that are generated for a module. Each is one line, whatever the name, and what stands
between its fixed parts is read as that name.
-/

namespace GadgetBuild

open Json

/-- The parts of a call of `require`. -/
def Import.requireParts : List Text :=
  ["require(".toList, ")".toList]

theorem Import.runtimeRequire_eq (name : Text) :
    runtimeRequire name = spliced name requireParts := by
  unfold runtimeRequire spliced requireParts
  generalize "require(".toList = lead
  generalize ")".toList = close
  rw [List.intercalate_cons_cons, List.intercalate_singleton]

namespace VirtualModule

/-- The parts of the line that asks the loader for a module and takes it. -/
def loaderParts : List Text :=
  ["const __mw_module = (await mw.loader.using(".toList, "))(".toList, ");".toList]

theorem endsLine_cookie (age : Option Nat) : Text.EndsLine (cookie age) := by
  cases age with
  | none => nofun
  | some n =>
    have hend : "\"\n".toList = ['"'] ++ ['\n'] := rfl
    unfold cookie
    dsimp only
    generalize "document.cookie = \"resourceLoaderDebug=2;max-age=".toList = lead
    rw [Text.EndsLine, hend, ← List.append_assoc, List.getLast?_concat]
    rintro c ⟨⟩
    rfl

theorem render_line (name : Text) (age : Option Nat) : ∃ behind,
    render name age = cookie age ++ (spliced name loaderParts ++ '\n' :: behind) := by
  obtain ⟨rest, hrest⟩ := render_eq name age
  have hlead : "const __mw_module = (await mw.loader.using(".toList =
      "const __mw_module = ".toList ++ "(await mw.loader.using(".toList := by
    decide
  have hclose : ");\n".toList = ");".toList ++ ['\n'] := by
    decide
  refine ⟨rest, ?_⟩
  rw [hrest, spliced, loaderParts, hlead, hclose]
  generalize "const __mw_module = ".toList = constant
  generalize "(await mw.loader.using(".toList = call
  generalize "))(".toList = middle
  generalize ");".toList = close
  simp only [List.intercalate_cons_cons, List.intercalate_singleton, List.append_assoc,
    List.singleton_append]

end VirtualModule

/-- A line of code that names a module between its fixed parts. -/
structure NamesOnOneLine (parts : List Text) (name line : Text) : Prop where
  controlFree : ControlFree line
  named : arguments? parts line = some (List.replicate (parts.length - 1) name)

theorem spliced_namesOnOneLine (h : ∀ p ∈ part :: parts, ControlFree p) (name : Text) :
    NamesOnOneLine (part :: parts) name (spliced name (part :: parts)) where
  controlFree := controlFree_spliced h name
  named := arguments?_spliced name part parts

/-- The literal of a name stands for it and for no other, and the calls that are generated with it
name the module on one line. -/
theorem literal_splices (name : Text) :
    StandsFor (quote name) name ∧
      NamesOnOneLine Import.requireParts name (Import.runtimeRequire name) ∧
      (∀ age, ∃ before line behind,
        VirtualModule.render name age = before ++ (line ++ '\n' :: behind) ∧
          Text.EndsLine before ∧ NamesOnOneLine VirtualModule.loaderParts name line) ∧
      ∀ other, quote name = quote other ↔ name = other := by
  refine ⟨quote_standsFor name, ?_, fun age => ?_, fun other => quote_inj⟩
  · rw [Import.runtimeRequire_eq]
    exact spliced_namesOnOneLine (by decide) name
  · obtain ⟨behind, hrender⟩ := VirtualModule.render_line name age
    exact ⟨_, _, behind, hrender, VirtualModule.endsLine_cookie age,
      spliced_namesOnOneLine (by decide) name⟩

end GadgetBuild
