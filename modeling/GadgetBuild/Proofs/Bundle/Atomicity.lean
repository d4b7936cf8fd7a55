import GadgetBuild.Bundle
import GadgetBuild.Proofs.Template.Opacity

/-!
A bundle is finished as a whole or not at all. Its entries are wrapped one after the other and a
failure ends this, but it is the settings that fail and not an entry: the first entry fails if any
does, when nothing has changed yet.
-/

namespace GadgetBuild

/-- The template is put around this file. -/
def Output.isEntry : Output → Bool
  | .chunk _ _ isEntry _ _ => isEntry
  | .asset _ _ => false

theorem Output.isEntry_eq_false {output : Text × Output}
    (h : ∀ key name filename code imports,
      output = (key, .chunk name filename true code imports) → False) :
    output.2.isEntry = false := by
  obtain ⟨key, value⟩ := output
  cases value with
  | chunk name filename isEntry code imports =>
    cases isEntry with
    | false => rfl
    | true => exact (h key name filename code imports rfl).elim
  | asset filename source => rfl

namespace Bundle

variable {s : Settings}

/-- Settings that fail do so at the first entry, before anything is wrapped. -/
theorem wrapEntries_of_error (h : ∀ code, Template.wrap s code = .error e) (b : Bundle) :
    wrapEntries s b = (b, if b.any (·.2.isEntry) then .error e else .ok ()) := by
  fun_induction wrapEntries s b with
  | case1 => rfl
  | case2 key name filename code imports rest failure hwrap =>
    obtain rfl : failure = e := Except.error.inj (hwrap.symm.trans (h code))
    rfl
  | case3 key name filename code imports rest wrapped hwrap =>
    rw [h code] at hwrap
    cases hwrap
  | case4 output rest hother others result hrest ih =>
    obtain ⟨rfl, rfl⟩ := Prod.mk.inj (hrest.symm.trans ih)
    rw [List.any_cons, Output.isEntry_eq_false hother, Bool.false_or]

/-- Settings that do not fail wrap every entry. -/
theorem wrapEntries_of_ok (h : ∀ code, ∃ wrapped, Template.wrap s code = .ok wrapped) (b : Bundle) :
    (wrapEntries s b).2 = .ok () := by
  fun_induction wrapEntries s b with
  | case1 => rfl
  | case2 key name filename code imports rest failure hwrap =>
    obtain ⟨wrapped, hok⟩ := h code
    rw [hok] at hwrap
    cases hwrap
  | case3 key name filename code imports rest wrapped hwrap others result hrest ih =>
    rwa [hrest] at ih
  | case4 output rest hother others result hrest ih =>
    rwa [hrest] at ih

theorem finish_result (s : Settings) (format : Format) (b : Bundle) :
    (finish s format b).2 = (wrapEntries s b).2 := by
  unfold finish
  split <;> rename_i hb
  · rw [hb]
  · rw [hb]

theorem finish_error_iff (format : Format) (b : Bundle) :
    (finish s format b).2 = .error e ↔
      b.any (·.2.isEntry) = true ∧ Template.aroundScript (Template.expand s) = .error e := by
  rw [finish_result]
  cases h : Template.aroundScript (Template.expand s) with
  | error f =>
    rw [wrapEntries_of_error (Template.wrap_of_error h)]
    by_cases hentry : b.any (·.2.isEntry) = true
    · simp [hentry]
    · simp [hentry]
  | ok p =>
    rw [wrapEntries_of_ok fun code => ⟨_, Template.wrap_of_ok h code⟩]
    simp

/-- A failure leaves the bundle as it was. -/
theorem finish_unchanged {b : Bundle} (h : (finish s format b).2 = .error e) :
    (finish s format b).1 = b := by
  obtain ⟨hentry, haround⟩ := (finish_error_iff format b).mp h
  unfold finish
  rw [wrapEntries_of_error (Template.wrap_of_error haround), if_pos hentry]

/-- Finishing a bundle fails exactly if it has an entry and the settings fail to wrap code, whatever
it is. The failure is that of wrapping, and the bundle is then what it was. -/
theorem finish_all_or_nothing (s : Settings) (format : Format) (b : Bundle) (code : Text)
    (e : Failure) :
    ((finish s format b).2 = .error e ↔
        (∃ o ∈ b, o.2.isEntry = true) ∧ Template.wrap s code = .error e) ∧
      ((finish s format b).2 = .error e ↔ finish s format b = (b, .error e)) := by
  constructor
  · rw [finish_error_iff, List.any_eq_true, Template.wrap_error_iff]
  · constructor
    · intro h
      exact Prod.ext (finish_unchanged h) h
    · intro h
      rw [h]

end Bundle
end GadgetBuild
