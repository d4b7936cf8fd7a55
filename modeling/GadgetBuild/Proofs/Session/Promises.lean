import Mathlib.Data.List.Basic
import Mathlib.Logic.Equiv.Defs
import GadgetBuild.Proofs.Plugin.Externals
import GadgetBuild.Proofs.Session.Runs

/-!
What a session with the plugin of a gadget keeps to, whatever the build tool calls and in whatever
order. Only resolutions have an effect on the plugin, and only transforms can tell: a module is
rewritten once one of its imports was found to be external. Warnings wait until they are taken.
-/

namespace GadgetBuild.Session

open Plugin (Importers gadget gadgetName)

/-- The session of a new plugin behind calls. -/
def after (st : Settings) (calls : List Call) : Session Importers :=
  ((start (gadget st)).run (gadget st) calls).1

def answers (st : Settings) (calls : List Call) : List Answer :=
  ((start (gadget st)).run (gadget st) calls).2

/-- The call resolves an external module for an importer. -/
def Call.flags (e : Externals) (id : Text) : Call → Bool
  | .resolve source importer => e.contains source && importer = some id
  | _ => false

/-- No other call has a say in the answer. -/
def Call.standsAlone : Call → Bool
  | .resolve _ _ | .load _ | .aroundDynamicImport | .renderChunk _ _ _ _ | .finishBundle _ _ => true
  | _ => false

/-- The first call that flags a module; the number of calls if none does. -/
def firstFlag (e : Externals) (id : Text) (calls : List Call) : Nat :=
  calls.findIdx (Call.flags e id)

/-- The same calls in another order: the new place of each. -/
structure Reordering (calls calls' : List Call) where
  place : Fin calls.length ≃ Fin calls'.length
  same : ∀ i, calls'[place i] = calls[i]

/-- No transform of a module moves past the first call that flags the module. -/
def Reordering.KeepsSides (r : Reordering calls calls') (e : Externals) : Prop :=
  ∀ (i : Fin calls.length) (id code : Text), calls[i] = .transform id code →
    (firstFlag e id calls < i ↔ firstFlag e id calls' < r.place i)

/-- The warnings that answers hand over. -/
def taken (answers : List Answer) : List Warning :=
  answers.flatMap fun
    | .taken warnings => warnings
    | _ => []

/-- The warnings that calls raise: those of the build tool, and those about a configuration. -/
def raised (st : Settings) : Config → List Call → List Warning
  | _, [] => []
  | c, .warn plugin message :: calls => ⟨plugin, message⟩ :: raised st c calls
  | c, .config given :: calls =>
    let (merged, fault) := Config.merge st (given.getD c)
    (fault.toList.map fun f => ⟨gadgetName, f.message⟩) ++ raised st merged calls
  | c, _ :: calls => raised st c calls

/-- The promises of a session about its calls. -/
structure Faithful (st : Settings) (calls : List Call) : Prop where
  importers : ∀ id, id ∈ (after st calls).state ↔
    ∃ source, .resolve source (some id) ∈ calls ∧ st.externals.contains source = true
  transforms : ∀ (i : Nat) (id code : Text), calls[i]? = some (.transform id code) →
    (answers st calls)[i]? = some (.transformed
      (if id ∈ (after st (calls.take i)).state then Import.toRequires id code else .ok none))
  alone : ∀ (i : Nat) (call : Call), calls[i]? = some call → call.standsAlone = true →
    (answers st calls)[i]? = some ((start (gadget st)).step (gadget st) call).2
  reordered : ∀ calls' (r : Reordering calls calls'), r.KeepsSides st.externals →
    ∀ i : Fin calls.length,
      (calls[i].standsAlone = true ∨ ∃ id code, calls[i] = .transform id code) →
        (answers st calls')[r.place i]? = (answers st calls)[i]?
  warnings : taken (answers st calls) ++ (after st calls).warnings = raised st .empty calls

variable {st : Settings} {s : Session Importers} {calls : List Call} {id : Text}

/-- One call flags a module or leaves the flags as they are. -/
theorem mem_step_state (call : Call) :
    id ∈ (s.step (gadget st) call).1.state ↔
      id ∈ s.state ∨ call.flags st.externals id = true := by
  cases call with
  | resolve source importer =>
    rw [Call.flags, Bool.and_eq_true, decide_eq_true_iff]
    exact Plugin.mem_resolveExternal
  | _ => simp [step, Call.flags]

theorem mem_run_state (calls : List Call) :
    id ∈ (s.run (gadget st) calls).1.state ↔
      id ∈ s.state ∨ calls.any (Call.flags st.externals id) = true := by
  induction calls generalizing s with
  | nil => simp [run]
  | cons call calls ih =>
    rw [run_cons, ih, mem_step_state, List.any_cons, Bool.or_eq_true, or_assoc]

theorem mem_after_iff_any :
    id ∈ (after st calls).state ↔ calls.any (Call.flags st.externals id) = true := by
  have hstart : id ∉ (start (gadget st)).state := List.not_mem_nil
  rw [after, mem_run_state, or_iff_right hstart]

theorem flags_iff {e : Externals} {call : Call} :
    call.flags e id = true ↔
      ∃ source, call = .resolve source (some id) ∧ e.contains source = true := by
  cases call with
  | resolve source importer => simp [Call.flags, and_comm]
  | _ => simp [Call.flags]

theorem mem_after (id : Text) :
    id ∈ (after st calls).state ↔
      ∃ source, .resolve source (some id) ∈ calls ∧ st.externals.contains source = true := by
  rw [mem_after_iff_any, List.any_eq_true]
  constructor
  · rintro ⟨call, hcall, hflags⟩
    obtain ⟨source, rfl, hsource⟩ := flags_iff.mp hflags
    exact ⟨source, hcall, hsource⟩
  · rintro ⟨source, hcall, hsource⟩
    exact ⟨_, hcall, flags_iff.mpr ⟨source, rfl, hsource⟩⟩

/-- Before a call a module is flagged if the first call to flag it came earlier. -/
theorem mem_after_take {i : Nat} (h : i < calls.length) :
    id ∈ (after st (calls.take i)).state ↔ firstFlag st.externals id calls < i := by
  rw [mem_after_iff_any, List.any_eq_true, ← List.findIdx_lt_length, List.findIdx_take,
    List.length_take_of_le (Nat.le_of_lt h), firstFlag]
  omega

/-- A call that stands alone has the same answer in every session. -/
theorem step_answer_of_standsAlone {call : Call} (h : call.standsAlone = true)
    (s t : Session Importers) :
    (s.step (gadget st) call).2 = (t.step (gadget st) call).2 := by
  cases call with
  | resolve source importer =>
    exact congrArg Answer.resolved
      ((Plugin.resolveExternal_id s.state).trans (Plugin.resolveExternal_id t.state).symm)
  | load | aroundDynamicImport | renderChunk | finishBundle => rfl
  | transform | config | warn | takeWarnings => cases h

theorem answer_of_standsAlone {i : Nat} (hcall : calls[i]? = some call)
    (h : call.standsAlone = true) :
    (answers st calls)[i]? = some ((start (gadget st)).step (gadget st) call).2 := by
  rw [answers, answer_eq hcall, step_answer_of_standsAlone h]

theorem answer_of_transform {i : Nat} (h : calls[i]? = some (.transform id code)) :
    (answers st calls)[i]? = some (.transformed
      (if id ∈ (after st (calls.take i)).state then Import.toRequires id code else .ok none)) :=
  answer_eq h

theorem answer_of_reordering {calls' : List Call} (r : Reordering calls calls')
    (hsides : r.KeepsSides st.externals) (i : Fin calls.length)
    (h : calls[i].standsAlone = true ∨ ∃ id code, calls[i] = .transform id code) :
    (answers st calls')[r.place i]? = (answers st calls)[i]? := by
  have hhere : calls[i]? = some calls[i] := List.getElem?_eq_getElem i.isLt
  have hthere : calls'[r.place i]? = some calls[i] := by
    rw [← r.same i]
    exact List.getElem?_eq_getElem (r.place i).isLt
  rcases h with halone | ⟨id, code, hcall⟩
  · exact (answer_of_standsAlone hthere halone).trans (answer_of_standsAlone hhere halone).symm
  · have hflags : id ∈ (after st (calls'.take (r.place i))).state ↔
        id ∈ (after st (calls.take i)).state := by
      rw [mem_after_take (r.place i).isLt, mem_after_take i.isLt]
      exact (hsides i id code hcall).symm
    rw [hcall] at hhere hthere
    exact (answer_of_transform hthere).trans
      (by rw [if_congr hflags rfl rfl]; exact (answer_of_transform hhere).symm)

/-- Warnings are taken once each and in the order in which they were raised, those before the calls
first. -/
theorem taken_append_warnings (s : Session Importers) (calls : List Call) :
    taken (s.run (gadget st) calls).2 ++ (s.run (gadget st) calls).1.warnings =
      s.warnings ++ raised st s.config calls := by
  induction calls generalizing s with
  | nil => simp [run, taken, raised]
  | cons call calls ih =>
    have htaken : taken ((s.step (gadget st) call).2 ::
        ((s.step (gadget st) call).1.run (gadget st) calls).2) =
        taken [(s.step (gadget st) call).2] ++
          taken ((s.step (gadget st) call).1.run (gadget st) calls).2 := by
      simp [taken]
    rw [run_cons, htaken, List.append_assoc, ih]
    cases call with
    | config given => simp [step, taken, raised, gadget]
    | warn plugin message => simp [step, taken, raised]
    | takeWarnings => simp [step, taken, raised]
    | _ => simp [step, taken, raised]

/-- Whatever is called on a new plugin, a module counts as an importer exactly if an external module
was resolved for it, transforms depend on that alone, other hooks on nothing, and every warning is
handed over once. -/
theorem session_faithful (st : Settings) (calls : List Call) : Faithful st calls where
  importers := mem_after
  transforms _ _ _ := answer_of_transform
  alone _ _ := answer_of_standsAlone
  reordered _ := answer_of_reordering
  warnings := taken_append_warnings (start (gadget st)) calls

end GadgetBuild.Session
