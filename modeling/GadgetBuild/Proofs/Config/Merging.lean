import GadgetBuild.Proofs.Session.Runs

/-!
What completing a configuration does to each of its parts, and what comes of doing it again and
again. What the user chose stays, and all that a build needs is there after the first time.
-/

namespace GadgetBuild.Config

open Plugin (gadget gadgetName)

variable {s : Settings} {c : Config}

def bundler (c : Config) : Option BundlerOptions :=
  c.build.bind (·.bundler)

def output (c : Config) : Option OutputOptions :=
  c.bundler.bind (·.output)

def entryFileNames (c : Config) : Option Text :=
  c.output.bind (·.entryFileNames)

def target (c : Config) : Option Text :=
  c.build.bind (·.target)

def cssCodeSplit (c : Config) : Option Bool :=
  c.build.bind (·.cssCodeSplit)

def lib (c : Config) : Option Lib :=
  c.build.bind (·.lib)

def firstEntry (c : Config) : Option Text :=
  c.dependencies.bind headEntry

def exclude (c : Config) : Option (List Text) :=
  c.dependencies.bind (·.exclude)

/-- An import is left out of the bundle. None is where nothing says which are. -/
def leavesOut (c : Config) (q : ImportQuery) : Bool :=
  (c.bundler.bind (·.external)).any (·.isExternal q)

/-- The next call makes the configuration that of a library. -/
def needsLib (s : Settings) (c : Config) : Bool :=
  match c.lib with
  | none => true
  | some .disabled => s.ignoreBuildOptions
  | some (.enabled _) => false

/-- The next call warns that there is a library already. -/
def warns (s : Settings) (c : Config) : Bool :=
  c.lib.isSome && !s.ignoreBuildOptions

/-- All that a call does: what every build needs, the library where one is missing, a warning where
one is in the way. -/
theorem merge_eq (s : Settings) (c : Config) :
    merge s c =
      (⟨some { mergeBuild s (c.build.getD .empty) with
            lib := if needsLib s c then some (libOf s (c.dependencies.getD .empty)) else c.lib },
          if needsLib s c then some (mergeDependencies s (c.dependencies.getD .empty))
            else c.dependencies⟩,
        if warns s c then some .libAlreadyConfigured else none) := by
  have hlib : (mergeBuild s (c.build.getD .empty)).lib = c.lib := by
    cases hbuild : c.build <;> simp [mergeBuild, lib, hbuild, BuildOptions.empty]
  unfold merge needsLib warns
  generalize mergeBuild s (c.build.getD .empty) = build at hlib
  obtain ⟨bundler, target, cssCodeSplit, lib⟩ := build
  obtain rfl : lib = c.lib := hlib
  rcases hc : c.lib with _ | (_ | options)
  · rfl
  · cases s.ignoreBuildOptions <;> rfl
  · cases s.ignoreBuildOptions <;> rfl

theorem lib_merge (s : Settings) (c : Config) : (merge s c).1.lib =
    if needsLib s c then some (libOf s (c.dependencies.getD .empty)) else c.lib := by
  rw [merge_eq]
  rfl

theorem dependencies_merge (s : Settings) (c : Config) : (merge s c).1.dependencies =
    if needsLib s c then some (mergeDependencies s (c.dependencies.getD .empty))
      else c.dependencies := by
  rw [merge_eq]

theorem warning_merge (s : Settings) (c : Config) :
    (merge s c).2 = if warns s c then some .libAlreadyConfigured else none := by
  rw [merge_eq]

theorem bundler_merge (s : Settings) (c : Config) :
    (merge s c).1.bundler = some (mergeBundler s (c.bundler.getD .empty)) := by
  rw [merge_eq]
  cases hbuild : c.build <;> simp [bundler, hbuild, mergeBuild, BuildOptions.empty]

theorem target_merge (s : Settings) (c : Config) :
    (merge s c).1.target = some (c.target.getD defaultTarget) := by
  rw [merge_eq]
  cases hbuild : c.build <;> simp [target, hbuild, mergeBuild, BuildOptions.empty]

theorem cssCodeSplit_merge (s : Settings) (c : Config) :
    (merge s c).1.cssCodeSplit = some (c.cssCodeSplit.getD true) := by
  rw [merge_eq]
  cases hbuild : c.build <;> simp [cssCodeSplit, hbuild, mergeBuild, BuildOptions.empty]

/-- Whatever shape the external modules are given in, more names are more external modules. -/
theorem isExternal_extend (more : List Text) (e : Option External) (q : ImportQuery) :
    (External.extend more e).isExternal q =
      (e.any (·.isExternal q) || decide (q.source ∈ more)) := by
  rcases e with _ | (name | names | holds)
  · simp [External.extend, External.isExternal]
  · simp [External.extend, External.isExternal, eq_comm]
  · simp [External.extend, External.isExternal]
  · simp [External.extend, External.isExternal]

theorem leavesOut_merge (s : Settings) (c : Config) (q : ImportQuery) :
    (merge s c).1.leavesOut q = (c.leavesOut q || decide (q.source ∈ s.externals.names)) := by
  unfold leavesOut
  rw [bundler_merge, Option.bind_some, mergeBundler, Option.any_some, isExternal_extend]
  cases c.bundler <;> rfl

theorem output_merge (h : s.esmChunks = false) (c : Config) :
    (merge s c).1.output = c.output := by
  unfold output
  rw [bundler_merge, Option.bind_some, mergeBundler, if_neg (by simp [h])]
  cases c.bundler <;> rfl

theorem entryFileNames_merge (s : Settings) (c : Config) :
    (merge s c).1.entryFileNames = c.entryFileNames := by
  unfold entryFileNames
  cases hesm : s.esmChunks with
  | false => rw [output_merge hesm]
  | true =>
    unfold output
    rw [bundler_merge, Option.bind_some, mergeBundler, if_pos hesm]
    rcases c.bundler with _ | ⟨external, _ | output⟩ <;> rfl

/-- A library's entry is the first of the files where the search for dependencies starts. -/
theorem firstEntry_mergeDependencies (s : Settings) (d : DependencyOptions) :
    headEntry (mergeDependencies s d) = some ((headEntry d).getD s.entry) := by
  unfold mergeDependencies
  cases hentry : headEntry d with
  | none => simp [headEntry]
  | some entry => simpa [headEntry] using hentry

theorem headEntry_getD (c : Config) : headEntry (c.dependencies.getD .empty) = c.firstEntry := by
  unfold firstEntry
  cases c.dependencies <;> rfl

theorem exclude_merge (s : Settings) (c : Config) : (merge s c).1.exclude =
    if needsLib s c then some (c.exclude.getD [] ++ s.externals.names) else c.exclude := by
  unfold exclude
  rw [dependencies_merge]
  split
  · cases c.dependencies <;> rfl
  · rfl

/-- Once a call was made no other makes a library. -/
theorem needsLib_merge (s : Settings) (c : Config) : needsLib s (merge s c).1 = false := by
  have hlib := lib_merge s c
  cases hneeds : needsLib s c with
  | true =>
    rw [hneeds, if_pos rfl] at hlib
    unfold needsLib
    rw [hlib]
    rfl
  | false =>
    rw [hneeds, if_neg Bool.false_ne_true] at hlib
    rw [← hneeds]
    unfold needsLib
    rw [hlib]

/-- The configuration behind a number of calls, each of which goes on from the one before. -/
def mergeTimes (s : Settings) (c : Config) : Nat → Config
  | 0 => c
  | n + 1 => (merge s (mergeTimes s c n)).1

theorem mergeTimes_of_eq {α : Type} {f : Config → α} (h : ∀ c, f (merge s c).1 = f c) (c : Config)
    (n : Nat) : f (mergeTimes s c n) = f c := by
  induction n with
  | zero => rfl
  | succ n ih => rw [mergeTimes, h, ih]

/-- What a call sets where it is not set stays from then on. -/
theorem mergeTimes_of_getD {α : Type} {f : Config → Option α} {d : α}
    (h : ∀ c, f (merge s c).1 = some ((f c).getD d)) (c : Config) (n : Nat) :
    f (mergeTimes s c (n + 1)) = some ((f c).getD d) := by
  induction n with
  | zero => exact h c
  | succ n ih => rw [mergeTimes, h, ih, Option.getD_some]

theorem leavesOut_mergeTimes (c : Config) (n : Nat) (q : ImportQuery) :
    (mergeTimes s c (n + 1)).leavesOut q =
      (c.leavesOut q || decide (q.source ∈ s.externals.names)) := by
  induction n with
  | zero => exact leavesOut_merge s c q
  | succ n ih => rw [mergeTimes, leavesOut_merge, ih, Bool.or_assoc, Bool.or_self]

/-- Only the first call makes a library. -/
theorem eq_zero_of_needsLib {n : Nat} (h : needsLib s (mergeTimes s c n) = true) : n = 0 := by
  cases n with
  | zero => rfl
  | succ n =>
    rw [mergeTimes, needsLib_merge] at h
    cases h

theorem exclude_mergeTimes (s : Settings) (c : Config) (n : Nat) :
    (mergeTimes s c (n + 1)).exclude = (merge s c).1.exclude := by
  induction n with
  | zero => rfl
  | succ n ih => rw [mergeTimes, exclude_merge, mergeTimes, needsLib_merge, ← ih]; rfl

/-- Calls to complete a configuration, each after the first going on from the one before. -/
def completions (c : Config) (n : Nat) : List Session.Call :=
  .config (some c) :: List.replicate n (.config none)

/-- The warnings that the first calls raise. -/
def warnings (s : Settings) (c : Config) (n : Nat) : List Warning :=
  (List.range n).flatMap fun k =>
    if warns s (mergeTimes s c k) then [⟨gadgetName, Failure.libAlreadyConfigured.message⟩] else []

theorem warnings_succ (s : Settings) (c : Config) (n : Nat) :
    warnings s c (n + 1) = warnings s c n ++
      if warns s (mergeTimes s c n) then [⟨gadgetName, Failure.libAlreadyConfigured.message⟩]
        else [] := by
  rw [warnings, List.range_succ, List.flatMap_append, List.flatMap_singleton]
  rfl

theorem step_config (t : Session Plugin.Importers) :
    (t.step (gadget s) (.config none)).1 = ⟨t.state, (merge s t.config).1, t.warnings ++
      if warns s t.config then [⟨gadgetName, Failure.libAlreadyConfigured.message⟩] else []⟩ := by
  change (⟨t.state, (merge s t.config).1, t.warnings ++
    (merge s t.config).2.toList.map fun f => ⟨gadgetName, f.message⟩⟩ : Session _) = _
  rw [warning_merge]
  cases warns s t.config <;> rfl

theorem run_completions (s : Settings) (c : Config) (n : Nat) :
    ((Session.start (gadget s)).run (gadget s) (completions c n)).1 =
      ⟨[], mergeTimes s c (n + 1), warnings s c (n + 1)⟩ := by
  have hrun : ∀ n, (Session.run (gadget s) ⟨[], c, []⟩ (List.replicate n (.config none))).1 =
      ⟨[], mergeTimes s c n, warnings s c n⟩ := by
    intro n
    induction n with
    | zero => rfl
    | succ n ih =>
      rw [List.replicate_succ', Session.run_append, ih, warnings_succ]
      exact step_config _
  exact hrun (n + 1)

/-- What holds of a call, the one behind `n` others on a configuration of the user's, and of what
all these calls leave. -/
structure Completed (s : Settings) (c : Config) (n : Nat) : Prop where
  leavesOut : ∀ q, (mergeTimes s c (n + 1)).leavesOut q =
    (c.leavesOut q || decide (q.source ∈ s.externals.names))
  target : (mergeTimes s c (n + 1)).target = some (c.target.getD defaultTarget)
  cssCodeSplit : (mergeTimes s c (n + 1)).cssCodeSplit = some (c.cssCodeSplit.getD true)
  entryFileNames : (mergeTimes s c (n + 1)).entryFileNames = c.entryFileNames
  output : s.esmChunks = false → (mergeTimes s c (n + 1)).output = c.output
  enabled : ∀ options, (mergeTimes s c n).lib = some (.enabled options) →
    (mergeTimes s c (n + 1)).lib = some (.enabled options)
  disabled : (mergeTimes s c n).lib = some .disabled → s.ignoreBuildOptions = false →
    (mergeTimes s c (n + 1)).lib = some .disabled
  warning : (merge s (mergeTimes s c n)).2 =
    if (mergeTimes s c n).lib ≠ none ∧ s.ignoreBuildOptions = false then
      some .libAlreadyConfigured else none
  dependencies : ((merge s (mergeTimes s c n)).2 ≠ none ∨
      ∃ options, (mergeTimes s c n).lib = some (.enabled options)) →
    (mergeTimes s c (n + 1)).dependencies = (mergeTimes s c n).dependencies
  exclude : (mergeTimes s c (n + 1)).exclude = c.exclude ∨
    (mergeTimes s c (n + 1)).exclude = some (c.exclude.getD [] ++ s.externals.names)
  created : ∀ options, (mergeTimes s c (n + 1)).lib = some (.enabled options) →
    (mergeTimes s c n).lib ≠ some (.enabled options) →
      (mergeTimes s c (n + 1)).firstEntry = some options.entry ∧
        options.entry = c.firstEntry.getD s.entry
  session : ((Session.start (gadget s)).run (gadget s) (completions c n)).1 =
    ⟨[], mergeTimes s c (n + 1), warnings s c (n + 1)⟩

theorem needsLib_of_enabled {options : LibOptions} (h : c.lib = some (.enabled options)) :
    needsLib s c = false := by
  unfold needsLib
  rw [h]

theorem needsLib_of_warns (h : warns s c = true) : needsLib s c = false := by
  unfold warns at h
  unfold needsLib
  rcases hlib : c.lib with _ | (_ | options)
  · simp [hlib] at h
  · simpa [hlib] using h
  · rfl

theorem lib_kept (h : needsLib s c = false) : (merge s c).1.lib = c.lib := by
  rw [lib_merge, h]
  rfl

theorem dependencies_kept (h : needsLib s c = false) :
    (merge s c).1.dependencies = c.dependencies := by
  rw [dependencies_merge, h]
  rfl

/-- A library that a call makes has the user's first entry, or else that of the settings. -/
theorem created_entry {options : LibOptions} (h : (merge s c).1.lib = some (.enabled options))
    (hnew : c.lib ≠ some (.enabled options)) :
    needsLib s c = true ∧ (merge s c).1.firstEntry = some options.entry ∧
      options.entry = c.firstEntry.getD s.entry := by
  cases hneeds : needsLib s c with
  | false => exact (hnew (lib_kept hneeds ▸ h)).elim
  | true =>
    rw [lib_merge, hneeds, if_pos rfl, libOf, headEntry_getD] at h
    obtain rfl := Lib.enabled.inj (Option.some.inj h)
    refine ⟨rfl, ?_, rfl⟩
    rw [firstEntry, dependencies_merge, hneeds, if_pos rfl, Option.bind_some,
      firstEntry_mergeDependencies, headEntry_getD]

/-- However often a configuration is completed, the external modules join those that it had, what
the user chose stays, a library is made at most once and only where there was none in use, with the
entry that the dependencies start from, and each call warns exactly if it had a library to leave
alone. -/
theorem merge_keeps_choices (s : Settings) (c : Config) (n : Nat) : Completed s c n where
  leavesOut := leavesOut_mergeTimes c n
  target := mergeTimes_of_getD (target_merge s) c n
  cssCodeSplit := mergeTimes_of_getD (cssCodeSplit_merge s) c n
  entryFileNames := mergeTimes_of_eq (entryFileNames_merge s) c (n + 1)
  output hone := mergeTimes_of_eq (output_merge hone) c (n + 1)
  enabled options h := by
    rw [mergeTimes, lib_kept (needsLib_of_enabled h), h]
  disabled h hignore := by
    have hneeds : needsLib s (mergeTimes s c n) = false := by
      unfold needsLib
      rw [h]
      exact hignore
    rw [mergeTimes, lib_kept hneeds, h]
  warning := by
    rw [warning_merge, warns]
    simp [Option.isSome_iff_ne_none]
  dependencies h := by
    refine dependencies_kept ?_
    rcases h with h | ⟨options, h⟩
    · rw [warning_merge] at h
      cases hwarns : warns s (mergeTimes s c n) with
      | true => exact needsLib_of_warns hwarns
      | false =>
        rw [hwarns] at h
        exact (h rfl).elim
    · exact needsLib_of_enabled h
  exclude := by
    rw [exclude_mergeTimes, exclude_merge]
    cases needsLib s c with
    | false => exact .inl rfl
    | true => exact .inr rfl
  created options h hnew := by
    obtain ⟨hneeds, hfirst, hentry⟩ := created_entry h hnew
    obtain rfl := eq_zero_of_needsLib hneeds
    exact ⟨hfirst, hentry⟩
  session := run_completions s c n

end GadgetBuild.Config
