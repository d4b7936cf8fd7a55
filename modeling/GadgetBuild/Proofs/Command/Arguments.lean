import GadgetBuild.Command.Arguments
import GadgetBuild.Proofs.Text.Front

/-!
A spelling of every command: long options with their values attached, and then the file.
-/

namespace GadgetBuild.Command

/-- A long option with its value. -/
def spellOption (name value : Text) : Text :=
  '-' :: '-' :: name ++ '=' :: value

/-- The option for a path, if there is one. -/
def spellPath (name : Text) (path : Option Text) : List Text :=
  path.toList.map (spellOption name)

/-- A spelling of a command, whatever names and paths it has. -/
def spelled : Command → List Text
  | .require file modules sourceMap out =>
    "rewrite".toList :: (modules.map (spellOption "using".toList) ++
      (spellPath "sourcemap".toList sourceMap ++
        (spellPath "out".toList out ++ ["--".toList, file])))
  | .wrap file config template out =>
    "wrap".toList :: (spellPath "config".toList (some config) ++
      (spellPath "template".toList template ++
        (spellPath "out".toList out ++ ["--".toList, file])))

/-- The paths in a command. -/
def paths : Command → List Text
  | .require file _ sourceMap out => file :: sourceMap.toList ++ out.toList
  | .wrap file config template out => file :: config :: template.toList ++ out.toList

theorem readArguments_option {v : Verb} (hname : v.ofLong? name = some s) (hsign : '=' ∉ name)
    (g : Given) (value : Text) (rest : List Text) :
    readArguments v none g (spellOption name value :: rest) =
      (g.put s value).bind fun g => readArguments v none g rest := by
  have hrun : ∀ c ∈ name, (fun d : Char => decide (d ≠ '=')) c = true := by
    intro c hc
    rw [decide_eq_true_eq]
    rintro rfl
    exact hsign hc
  have hread : readLong v g (name ++ '=' :: value) = (g.put s value).map (·, none) := by
    unfold readLong
    rw [Text.takeWhile_append_cons hrun (by decide), Text.dropWhile_append_cons hrun (by decide)]
    simp only [List.tail?_cons, hname]
  have hend : ¬ spellOption name value = "--".toList := by
    intro he
    have hdash : "--".toList = ['-', '-'] := by decide
    rw [hdash] at he
    simp [spellOption] at he
  have hoption : isOption (spellOption name value) = true := by
    simp [isOption, spellOption]
  have hlong : readArguments v none g (spellOption name value :: rest) =
      (readLong v g (name ++ '=' :: value)).bind fun p => readArguments v p.2 p.1 rest := by
    conv_lhs => unfold readArguments
    rw [if_neg hend, hoption]
    rfl
  rw [hlong, hread]
  cases g.put s value <;> rfl

/-- Any modules can be given, one after the other. -/
theorem readArguments_modules (g : Given) (modules rest : List Text) :
    readArguments .require none g (modules.map (spellOption "using".toList) ++ rest) =
      readArguments .require none
        { g with values := g.values ++ modules.map fun m => (.modules, m) } rest := by
  induction modules generalizing g with
  | nil => simp
  | cons name modules ih =>
    have hput : g.put .modules name = .ok { g with values := g.values ++ [(.modules, name)] } := rfl
    rw [List.map_cons, List.cons_append,
      readArguments_option (s := .modules) (by decide) (by decide), hput]
    change readArguments _ none { g with values := g.values ++ [(.modules, name)] } _ = _
    rw [ih]
    simp

/-- What is given for a path, if there is one. -/
def givenPath (s : Setting) (path : Option Text) : List (Setting × Text) :=
  path.toList.map fun p => (s, p)

/-- A path can be given that was not given before. -/
theorem readArguments_path {v : Verb} (hname : v.ofLong? name = some s) (hsign : '=' ∉ name)
    (g : Given) (hfree : g.get? s = none) (path : Option Text)
    (hpath : ∀ p ∈ path, p ≠ []) (rest : List Text) :
    readArguments v none g (spellPath name path ++ rest) =
      readArguments v none { g with values := g.values ++ givenPath s path } rest := by
  cases path with
  | none => simp [spellPath, givenPath]
  | some p =>
    have hput : g.put s p = .ok { g with values := g.values ++ [(s, p)] } := by
      unfold Given.put
      rw [if_neg (by simp [hpath p rfl, hfree])]
    change readArguments v none g (spellOption name p :: rest) = _
    rw [readArguments_option hname hsign, hput]
    rfl

theorem readArguments_file (v : Verb) (g : Given) (hfree : g.file = none) (hfile : file ≠ []) :
    readArguments v none g ["--".toList, file] = .ok { g with file := some file } := by
  have hput : g.putFile file = .ok { g with file := some file } := by
    unfold Given.putFile
    rw [if_neg (by simp [hfile, hfree])]
  unfold readArguments
  rw [if_pos rfl, List.foldlM_cons, hput]
  rfl

/-- Modules that were given are no paths, and a path is the first given of its kind. -/
theorem get?_modules (silent : Bool) (file : Option Text) (modules : List Text)
    (rest : List (Setting × Text)) (hs : s ≠ .modules) :
    Given.get? ⟨silent, file, (modules.map fun m => (.modules, m)) ++ rest⟩ s =
      Given.get? ⟨silent, file, rest⟩ s := by
  have hnone : (modules.map fun m => (Setting.modules, m)).find? (·.1 = s) = none := by
    refine List.find?_eq_none.mpr fun x hx => ?_
    obtain ⟨m, -, rfl⟩ := List.mem_map.mp hx
    simpa using Ne.symm hs
  rw [Given.get?, List.find?_append, hnone, Option.none_or]
  rfl

theorem get?_path (silent : Bool) (file path : Option Text) (rest : List (Setting × Text)) :
    Given.get? ⟨silent, file, givenPath s' path ++ rest⟩ s =
      if s = s' then path.or (Given.get? ⟨silent, file, rest⟩ s) else
        Given.get? ⟨silent, file, rest⟩ s := by
  cases path with
  | none => simp [givenPath]
  | some p =>
    by_cases hs : s = s'
    · subst hs
      simp [Given.get?, givenPath]
    · simp [Given.get?, givenPath, hs, Ne.symm hs]

theorem filter_modules (modules : List Text) (rest : List (Setting × Text))
    (hrest : ∀ x ∈ rest, x.1 ≠ .modules) :
    ((((modules.map fun m => (Setting.modules, m)) ++ rest).filter (·.1 = .modules)).map (·.2)) =
      modules := by
  have hall : (modules.map fun m => (Setting.modules, m)).filter (·.1 = .modules) =
      modules.map fun m => (.modules, m) := by
    refine List.filter_eq_self.mpr fun x hx => ?_
    obtain ⟨m, -, rfl⟩ := List.mem_map.mp hx
    rfl
  have hnone : rest.filter (·.1 = .modules) = [] := by
    simpa [List.filter_eq_nil_iff] using hrest
  rw [List.filter_append, hall, hnone, List.append_nil, List.map_map]
  exact List.map_id' modules

theorem ofArguments_verb (h : Verb.ofName? name = some v) (silent : Bool) (rest : List Text) :
    ofArguments silent (name :: rest) = (readArguments v none .empty rest).bind (ofGiven v) := by
  unfold ofArguments
  rw [h]

theorem readArguments_require {file : Text} {map out : Option Text} (hfile : file ≠ [])
    (hmap : ∀ p ∈ map, p ≠ []) (hout : ∀ p ∈ out, p ≠ []) (modules : List Text) :
    readArguments .require none .empty (modules.map (spellOption "using".toList) ++
        (spellPath "sourcemap".toList map ++
          (spellPath "out".toList out ++ ["--".toList, file]))) =
      .ok ⟨false, some file, (modules.map fun m => (.modules, m)) ++
        (givenPath .sourceMap map ++ (givenPath .out out ++ []))⟩ := by
  rw [readArguments_modules,
    readArguments_path (s := .sourceMap) (by decide) (by decide) _ ?_ map hmap,
    readArguments_path (s := .out) (by decide) (by decide) _ ?_ out hout,
    readArguments_file _ _ rfl hfile]
  · simp [Given.empty]
  · refine (get?_modules false none modules _ (by decide)).trans ?_
    cases map <;> rfl
  · have hnone := get?_modules (s := .sourceMap) false none modules [] (by decide)
    rw [List.append_nil] at hnone
    exact hnone

theorem readArguments_wrap {file config : Text} {template out : Option Text} (hfile : file ≠ [])
    (hconfig : config ≠ []) (htemplate : ∀ p ∈ template, p ≠ []) (hout : ∀ p ∈ out, p ≠ []) :
    readArguments .wrap none .empty (spellPath "config".toList (some config) ++
        (spellPath "template".toList template ++
          (spellPath "out".toList out ++ ["--".toList, file]))) =
      .ok ⟨false, some file, givenPath .config (some config) ++
        (givenPath .template template ++ (givenPath .out out ++ []))⟩ := by
  have hone : ∀ p ∈ some config, p ≠ [] := fun p hp => Option.some.inj hp ▸ hconfig
  rw [readArguments_path (s := .config) (by decide) (by decide) _ rfl _ hone,
    readArguments_path (s := .template) (by decide) (by decide) _ rfl _ htemplate,
    readArguments_path (s := .out) (by decide) (by decide) _ ?_ _ hout,
    readArguments_file _ _ rfl hfile]
  · simp [Given.empty]
  · cases template <;> rfl

/-- The spelling of a command is read as that command. -/
theorem ofArguments_spelled (c : Command) (h : ∀ p ∈ c.paths, p ≠ []) :
    ofArguments false (spelled c) = .ok c := by
  cases c with
  | require file modules map out =>
    have hmap : ∀ p ∈ map, p ≠ [] := fun p hp => h p (by simp [paths, show map = some p from hp])
    have hout : ∀ p ∈ out, p ≠ [] := fun p hp => h p (by simp [paths, show out = some p from hp])
    have hrest : ∀ x ∈ givenPath .sourceMap map ++ (givenPath .out out ++ []), x.1 ≠ .modules := by
      intro x hx
      simp only [givenPath, List.append_nil, List.mem_append, List.mem_map] at hx
      rcases hx with ⟨p, -, rfl⟩ | ⟨p, -, rfl⟩
      · exact nofun
      · exact nofun
    have hverb : Verb.ofName? "rewrite".toList = some .require := by decide
    refine (ofArguments_verb hverb false _).trans ?_
    rw [readArguments_require (h file (by simp [paths])) hmap hout]
    simp only [Except.bind, ofGiven]
    rw [filter_modules _ _ hrest, get?_modules _ _ _ _ (by decide),
      get?_modules _ _ _ _ (by decide), get?_path, get?_path, get?_path, get?_path]
    simp [Given.get?]
  | wrap file config template out =>
    have htemplate : ∀ p ∈ template, p ≠ [] := fun p hp =>
      h p (by simp [paths, show template = some p from hp])
    have hout : ∀ p ∈ out, p ≠ [] := fun p hp => h p (by simp [paths, show out = some p from hp])
    have hverb : Verb.ofName? "wrap".toList = some .wrap := by decide
    refine (ofArguments_verb hverb false _).trans ?_
    rw [readArguments_wrap (h file (by simp [paths])) (h config (by simp [paths])) htemplate hout]
    simp only [Except.bind, ofGiven]
    rw [get?_path, get?_path, get?_path, get?_path, get?_path, get?_path, get?_path, get?_path,
      get?_path]
    simp [Given.get?]

end GadgetBuild.Command
