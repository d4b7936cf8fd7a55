import GadgetBuild.Plugin
import GadgetBuild.Proofs.Text.Front

/-!
The ids of external modules, and what resolving an import does with them.
-/

namespace GadgetBuild

namespace ExternalModule

/-- An id is read as the name of a module exactly if it is a name behind one of the two leads. -/
theorem nameOf?_eq_some_iff {id name : Text} :
    nameOf? id = some name ↔ name ≠ [] ∧ ∃ lead, IsLead lead ∧ id = lead ++ name := by
  unfold nameOf?
  cases hlead : afterLead? id with
  | none =>
    refine ⟨fun h => (by cases h), ?_⟩
    rintro ⟨-, lead, his, rfl⟩
    rw [afterLead?_eq_some_iff.mpr ⟨his, rfl⟩] at hlead
    cases hlead
  | some found =>
    obtain ⟨lead, rest⟩ := found
    obtain ⟨his, rfl⟩ := afterLead?_eq_some_iff.mp hlead
    dsimp only
    constructor
    · intro h
      split at h
      · cases h
      · rename_i hne
        cases h
        exact ⟨hne, lead, his, rfl⟩
    · rintro ⟨hne, lead', his', he⟩
      rw [he, afterLead?_eq_some_iff.mpr ⟨his', rfl⟩] at hlead
      cases hlead
      rw [if_neg hne]

theorem ofVirtualId?_append {lead name : Text} (hlead : IsLead lead) (hne : name ≠ []) :
    ofVirtualId? (lead ++ name) = some ⟨name⟩ := by
  rw [ofVirtualId?, nameOf?_eq_some_iff.mpr ⟨hne, lead, hlead, rfl⟩]
  rfl

end ExternalModule

theorem Externals.resolve?_eq_some_iff {e : Externals} :
    e.resolve? source = some m ↔ e.contains source = true ∧ m = ⟨source⟩ := by
  unfold resolve?
  split
  · rename_i hcontains
    simp [hcontains, eq_comm]
  · rename_i hcontains
    simp [hcontains]

namespace Plugin

theorem mem_resolveExternal {e : Externals} {importers : Importers} {id : Text} :
    id ∈ (resolveExternal e source importer importers).1 ↔
      id ∈ importers ∨ e.contains source = true ∧ importer = some id := by
  unfold resolveExternal Externals.resolve?
  by_cases h : e.contains source = true
  · cases importer with
    | none => simp [h]
    | some i => simp [h, or_comm, eq_comm]
  · simp [h]

/-- The id of a module does not depend on who imported it before. -/
theorem resolveExternal_id {e : Externals} (importers : Importers) :
    (resolveExternal e source importer importers).2 =
      (e.resolve? source).map ExternalModule.virtualId := by
  unfold resolveExternal
  cases e.resolve? source with
  | none => rfl
  | some m => rfl

end Plugin
end GadgetBuild
