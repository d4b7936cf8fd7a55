import GadgetBuild.Command.Run
import GadgetBuild.Proofs.Command.Arguments
import GadgetBuild.Proofs.Command.FileTree
import GadgetBuild.Proofs.Plugin.Externals

/-!
The command line against the library. A command goes through the hooks of the plugin, and yet it
brings out what the library makes of the texts that it names.
-/

namespace GadgetBuild

theorem Externals.contains_of_mem (h : name ∈ listed) : (ofList listed).contains name = true := by
  have hname : name ∈ (ofList listed).names := by
    unfold ofList
    dsimp only
    split
    · exact List.mem_append_left _ (List.mem_eraseDups.mpr h)
    · exact List.mem_eraseDups.mpr h
  simp [contains, hname]

namespace Command

/-- The file is an importer as soon as a module is named. -/
theorem mem_importers {e : Externals} (h : ∀ name ∈ modules, e.contains name = true)
    (importers : Plugin.Importers) :
    file ∈ modules.foldl (fun s name => (Plugin.resolveExternal e name (some file) s).1) importers ↔
      file ∈ importers ∨ modules ≠ [] := by
  induction modules generalizing importers with
  | nil => simp
  | cons name modules ih =>
    rw [List.foldl_cons, ih (fun n hn => h n (List.mem_cons_of_mem _ hn)),
      Plugin.mem_resolveExternal]
    simp [h name List.mem_cons_self]

/-- Without a module nothing is rewritten. -/
theorem withRequires_eq (file : Text) (modules : List Text) (code : Text) :
    withRequires file modules code =
      if modules = [] then .ok none else Import.toRequires file code := by
  have hcontains : ∀ name ∈ modules, (moduleSettings file modules).externals.contains name = true :=
    fun name hname => Externals.contains_of_mem hname
  have hmem : file ∈ modules.foldl (fun s name => (Plugin.resolveExternal
      (moduleSettings file modules).externals name (some file) s).1) [] ↔ modules ≠ [] := by
    simpa using mem_importers hcontains []
  change (if file ∈ modules.foldl (fun s name => (Plugin.resolveExternal
    (moduleSettings file modules).externals name (some file) s).1) [] then _ else _) = _
  by_cases h : modules = []
  · rw [if_neg (fun hin => hmem.mp hin h), if_pos h]
  · rw [if_pos (hmem.mpr h), if_neg h]

/-- A bundle of one entry keeps it, in a build in two formats too. -/
theorem finish_entry (h : Template.wrap s code = .ok result) (key name filename : Text)
    (imports : List Text) :
    Bundle.finish s .cjs [(key, .chunk name filename true code imports)] =
      ([(key, .chunk name filename true result imports)], .ok ()) := by
  unfold Bundle.finish
  simp only [Bundle.wrapEntries, h, Bundle.isShipped]
  split <;> rfl

theorem finish_entry_error (h : Template.wrap s code = .error e) (key name filename : Text)
    (imports : List Text) :
    (Bundle.finish s .cjs [(key, .chunk name filename true code imports)]).2 = .error e := by
  unfold Bundle.finish
  simp only [Bundle.wrapEntries, h]

theorem wrapped_eq (s : Settings) (file code : Text) :
    wrapped s file code = Template.wrap s code := by
  have hfinish : ∀ b, (Plugin.gadget s).finishBundle .cjs b = Bundle.finish s .cjs b := fun _ => rfl
  unfold wrapped
  simp only [hfinish]
  cases h : Template.wrap s code with
  | error e =>
    have hend := finish_entry_error h ((fileName? file).getD s.name) s.name
      ((fileName? file).getD s.name) []
    split
    · rename_i hfail
      rw [hfail] at hend
      cases hend
      rfl
    · rename_i hdone
      rw [hdone] at hend
      cases hend
  | ok result =>
    rw [finish_entry h]
    simp [Table.get?, pure, Except.pure]

section

variable {α β : Type} {t t' : FileTree}

/-- A run that goes on after its first part. -/
theorem run_bind_ok {x : ExceptT Cause (StateM FileTree) α}
    {f : α → ExceptT Cause (StateM FileTree) β} (h : x.run.run t = (.ok a, t')) :
    (x >>= f).run.run t = (f a).run.run t' := by
  rw [ExceptT.run_bind, StateT.run_bind, h]
  rfl

/-- A run that ends in its first part. -/
theorem run_bind_error {x : ExceptT Cause (StateM FileTree) α}
    {f : α → ExceptT Cause (StateM FileTree) β} (h : x.run.run t = (.error e, t')) :
    (x >>= f).run.run t = (.error e, t') := by
  rw [ExceptT.run_bind, StateT.run_bind, h]
  rfl

/-- An access to files in a run. -/
theorem run_lift {x : StateM FileTree α} (h : x.run t = (a, t')) :
    (liftM x : ExceptT Cause (StateM FileTree) α).run.run t = (.ok a, t') := by
  rw [ExceptT.run_liftM, StateT.run_map, h]
  rfl

theorem run_readFile_ok (h : t.read path = .ok text) :
    (readFile FileTree.access path).run.run t = (.ok text, t) := by
  have hread : (FileTree.access.read path).run t = (.ok text, t) := by
    rw [← h]
    rfl
  exact run_bind_ok (run_lift hread)

theorem run_readFile_error (h : t.read path = .error e) :
    ∃ cause, (readFile FileTree.access path).run.run t = (.error cause, t) := by
  have hread : (FileTree.access.read path).run t = (.error e, t) := by
    rw [← h]
    rfl
  exact ⟨_, run_bind_ok (run_lift hread)⟩

theorem run_access_write (t : FileTree) (path content : Text) :
    (FileTree.access.write path content).run t =
      match t.write path content with
      | .error e => (.error e, t)
      | .ok t' => (.ok (), t') := by
  unfold FileTree.access
  dsimp only
  rw [StateT.run_bind, StateT.run_get, pure_bind]
  cases t.write path content <;> rfl

theorem run_writeFile_ok (h : t.write path content = .ok t') :
    (writeFile FileTree.access path content).run.run t = (.ok (), t') := by
  have hwrite : (FileTree.access.write path content).run t = (.ok (), t') := by
    rw [run_access_write, h]
  exact run_bind_ok (run_lift hwrite)

theorem run_writeFile_error (h : t.write path content = .error e) :
    ∃ cause, (writeFile FileTree.access path content).run.run t = (.error cause, t) := by
  have hwrite : (FileTree.access.write path content).run t = (.error e, t) := by
    rw [run_access_write, h]
  exact ⟨_, run_bind_ok (run_lift hwrite)⟩

end

/-- The place for the source map of what a command makes. -/
def sourceMap : Command → Option Text
  | .require _ _ sourceMap _ => sourceMap
  | .wrap _ _ _ _ => none

/-- What is to be delivered: code, and the map to its source if it was rewritten. -/
structure Product where
  code : Text
  map : Option SourceMap
  deriving DecidableEq, Repr

/-- What the library makes of the code of a file in which imports of modules are to be rewritten.
Without a module there is nothing to rewrite. -/
def rewritten? (file : Text) (modules : List Text) (code : Text) : Option Product :=
  if modules = [] then some ⟨code, none⟩
  else
    match Import.toRequires file code with
    | .error _ => none
    | .ok none => some ⟨code, none⟩
    | .ok (some result) => some ⟨result.code, some result.map⟩

/-- The options in a file of a tree, with the template in another one if it is named. -/
def options? (t : FileTree) (config : Text) (template : Option Text) : Option Options := do
  let text ← (t.read config).toOption
  let options ← (Options.ofText text).toOption
  match template with
  | none => some options
  | some path => (t.read path).toOption.map fun found => { options with template := some found }

/-- What the library makes of the texts of a tree that a command names, without any plugin. There is
nothing if a text cannot be read, or the library fails. -/
def product? (t : FileTree) : Command → Option Product
  | .require file modules _ _ => (t.read file).toOption.bind (rewritten? file modules)
  | .wrap file config template _ => do
    let options ← options? t config template
    let code ← (t.read file).toOption
    let result ← (Template.wrap options.settings code).toOption
    return ⟨result, none⟩

/-- The tree with the source map at its place, if there is one to be delivered. -/
def deliverMap (t : FileTree) (c : Command) (p : Product) : Except FileError FileTree :=
  match c.sourceMap, p.map with
  | some path, some map => t.write path (Json.compact map.value)
  | _, _ => .ok t

/-- The tree with all that a command has to write. -/
def deliver (t : FileTree) (c : Command) (p : Product) : Except FileError FileTree := do
  let t ← deliverMap t c p
  match c.out with
  | none => return t
  | some path => t.write path p.code

/-- How making code ends, with the product that there is. A map that cannot be written ends it. -/
inductive Makes (t : FileTree) (c : Command) :
    Option Product → Except Cause Text × FileTree → Prop where
  | refused (cause : Cause) : Makes t c none (.error cause, t)
  | made (p : Product) (h : deliverMap t c p = .ok t') : Makes t c (some p) (.ok p.code, t')
  | unwritten (p : Product) (h : deliverMap t c p = .error e) (cause : Cause) :
      Makes t c (some p) (.error cause, t)

variable {t t' : FileTree}

theorem deliverMap_of_none (h : p.map = none) : deliverMap t c p = .ok t := by
  unfold deliverMap
  rw [h]
  split
  · rename_i hnone
    cases hnone
  · rfl

theorem makes_require (t : FileTree) (file : Text) (modules : List Text) (map out : Option Text) :
    Makes t (.require file modules map out) (product? t (.require file modules map out))
      ((produce FileTree.access (.require file modules map out)).run.run t) := by
  unfold product? produce
  dsimp only
  cases hcode : t.read file with
  | error e =>
    obtain ⟨cause, hread⟩ := run_readFile_error hcode
    rw [run_bind_error hread]
    exact .refused cause
  | ok code =>
    rw [run_bind_ok (run_readFile_ok hcode), withRequires_eq]
    change Makes t _ (rewritten? file modules code) _
    unfold rewritten?
    split
    · exact .made ⟨code, none⟩ (deliverMap_of_none rfl)
    · cases hresult : Import.toRequires file code with
      | error f => exact .refused (.failure f)
      | ok result =>
        cases result with
        | none => exact .made ⟨code, none⟩ (deliverMap_of_none rfl)
        | some result =>
          cases map with
          | none => exact .made ⟨result.code, some result.map⟩ rfl
          | some path =>
            cases hwrite : t.write path (Json.compact result.map.value) with
            | ok t' =>
              have hmap : deliverMap t (.require file modules (some path) out)
                  ⟨result.code, some result.map⟩ = .ok t' := hwrite
              have hrun := run_bind_ok (f := fun _ => pure result.code) (run_writeFile_ok hwrite)
              exact hrun ▸ .made _ hmap
            | error e =>
              have hmap : deliverMap t (.require file modules (some path) out)
                  ⟨result.code, some result.map⟩ = .error e := hwrite
              obtain ⟨cause, hfail⟩ := run_writeFile_error hwrite
              have hrun := run_bind_error (f := fun _ => pure result.code) hfail
              exact hrun ▸ .unwritten _ hmap cause

/-- The last steps of wrapping, with the options at hand. -/
theorem makes_wrapped (t : FileTree) (c : Command) (options : Options) (file : Text) :
    Makes t c
      ((t.read file).toOption.bind fun code =>
        (Template.wrap options.settings code).toOption.bind fun result => some ⟨result, none⟩)
      ((do
        let code ← readFile FileTree.access file
        orFail (wrapped options.settings file code)).run.run t) := by
  cases hcode : t.read file with
  | error e =>
    obtain ⟨cause, hread⟩ := run_readFile_error hcode
    rw [run_bind_error hread]
    exact .refused cause
  | ok code =>
    rw [run_bind_ok (run_readFile_ok hcode), wrapped_eq]
    simp only [Except.toOption, Option.bind_some]
    cases Template.wrap options.settings code with
    | error f => exact .refused (.failure f)
    | ok result => exact .made ⟨result, none⟩ (deliverMap_of_none rfl)

theorem makes_wrap (t : FileTree) (file config : Text) (template out : Option Text) :
    Makes t (.wrap file config template out) (product? t (.wrap file config template out))
      ((produce FileTree.access (.wrap file config template out)).run.run t) := by
  unfold product? options? produce
  simp only [Option.bind_eq_bind, Option.pure_def]
  cases htext : t.read config with
  | error e =>
    obtain ⟨cause, hread⟩ := run_readFile_error htext
    rw [run_bind_error hread]
    exact .refused cause
  | ok text =>
    rw [run_bind_ok (run_readFile_ok htext)]
    simp only [Except.toOption, Option.bind_some]
    cases Options.ofText text with
    | error p => exact .refused _
    | ok options =>
      cases template with
      | none => exact makes_wrapped t _ options file
      | some path =>
        simp only [Option.bind_some, pure_bind]
        cases hpath : t.read path with
        | error e =>
          obtain ⟨cause, hread⟩ := run_readFile_error hpath
          rw [run_bind_error hread]
          exact .refused cause
        | ok found =>
          rw [run_bind_ok (run_readFile_ok hpath)]
          exact makes_wrapped t _ { options with template := some found } file

theorem makes_produce (t : FileTree) (c : Command) :
    Makes t c (product? t c) ((produce FileTree.access c).run.run t) := by
  cases c with
  | require file modules map out => exact makes_require t file modules map out
  | wrap file config template out => exact makes_wrap t file config template out

/-- What a program leaves behind, and the tree it leaves, agree with what the library makes. -/
structure Agrees (t : FileTree) (c : Command) (report : Report) (after : FileTree) : Prop where
  /-- Where a text cannot be read or the library fails, nothing is printed and nothing written. -/
  refuses (h : product? t c = none) : report.exitCode ≠ 0 ∧ report.stdout = [] ∧ after = t
  /-- What there is, is printed or goes to its file, if the places for it can be written. -/
  delivers {p : Product} {u : FileTree} (h : product? t c = some p) (hu : deliver t c p = .ok u) :
    report.exitCode = 0 ∧ report.stdout = (if c.out = none then p.code else []) ∧ after = u
  /-- The code is then read from its file, unless that is above the tree. -/
  readable {p : Product} {u : FileTree} {path : Text} (h : product? t c = some p)
    (hu : deliver t c p = .ok u) (hpath : c.out = some path) :
    ∃ l, after.locate path = .ok l ∧ (l.above = 0 → after.read path = .ok p.code)
  /-- Where a place cannot be written, nothing is printed. -/
  fails {p : Product} {e : FileError} (h : product? t c = some p) (he : deliver t c p = .error e) :
    report.exitCode ≠ 0 ∧ report.stdout = []

theorem deliver_readable {u : FileTree} (h : deliver t c p = .ok u) (hpath : c.out = some path) :
    ∃ l, u.locate path = .ok l ∧ (l.above = 0 → u.read path = .ok p.code) := by
  unfold deliver at h
  cases hmap : deliverMap t c p with
  | error e =>
    rw [hmap] at h
    cases h
  | ok between =>
    rw [hmap, hpath] at h
    exact FileTree.read_of_write h

variable {arguments : List Text}

theorem agrees_of_error (h : ofArguments false arguments = .ok c)
    (hrun : (run FileTree.access c).run.run t = (.error cause, t')) (elapsed : Text)
    (hmade : product? t c = none → t' = t)
    (hplaced : ∀ p u, product? t c = some p → deliver t c p ≠ .ok u) :
    Agrees t c ((execute FileTree.access (pure elapsed) arguments).run t).1
      ((execute FileTree.access (pure elapsed) arguments).run t).2 := by
  have hend : (execute FileTree.access (pure elapsed) arguments).run t =
      (⟨1, [], errorLine cause⟩, t') := by
    unfold execute
    rw [h]
    dsimp only
    rw [StateT.run_bind, hrun]
    rfl
  rw [hend]
  exact {
    refuses := fun hnone => ⟨Nat.one_ne_zero, rfl, hmade hnone⟩
    delivers := fun hp hu => absurd hu (hplaced _ _ hp)
    readable := fun hp hu => absurd hu (hplaced _ _ hp)
    fails := fun _ _ => ⟨Nat.one_ne_zero, rfl⟩ }

theorem agrees_of_ok (h : ofArguments false arguments = .ok c)
    (hrun : (run FileTree.access c).run.run t = (.ok code, t')) (elapsed : Text)
    (hp : product? t c = some p) (hplaced : deliver t c p = .ok t')
    (hcode : code = if c.out = none then p.code else []) :
    Agrees t c ((execute FileTree.access (pure elapsed) arguments).run t).1
      ((execute FileTree.access (pure elapsed) arguments).run t).2 := by
  have hend : ∃ stderr, (execute FileTree.access (pure elapsed) arguments).run t =
      (⟨0, code, stderr⟩, t') := by
    unfold execute
    rw [h]
    dsimp only
    rw [StateT.run_bind, hrun]
    cases c.out with
    | none => exact ⟨_, rfl⟩
    | some path => exact ⟨_, rfl⟩
  obtain ⟨stderr, hend⟩ := hend
  rw [hend]
  have hsame : ∀ {q u}, product? t c = some q → deliver t c q = .ok u → q = p ∧ u = t' := by
    intro q u hq hu
    obtain rfl := Option.some.inj (hq.symm.trans hp)
    exact ⟨rfl, Except.ok.inj (hu.symm.trans hplaced)⟩
  exact {
    refuses := fun hnone => nomatch hnone.symm.trans hp
    delivers := fun hq hu => by
      obtain ⟨rfl, rfl⟩ := hsame hq hu
      exact ⟨rfl, hcode, rfl⟩
    readable := fun hq hu hpath => by
      obtain ⟨rfl, rfl⟩ := hsame hq hu
      exact deliver_readable hu hpath
    fails := fun hq he => by
      obtain rfl := Option.some.inj (hq.symm.trans hp)
      exact nomatch he.symm.trans hplaced }

/-- What a run does once the code is made. -/
def place (c : Command) (code : Text) : ExceptT Cause (StateM FileTree) Text :=
  match c.out with
  | none => pure code
  | some path => do
    writeFile FileTree.access path code
    return []

theorem deliver_of_map (h : deliverMap t c p = .ok t') :
    deliver t c p = match c.out with
      | none => .ok t'
      | some path => t'.write path p.code := by
  unfold deliver
  rw [h]
  rfl

theorem run_place_ok {u : FileTree} (hmap : deliverMap t c p = .ok t')
    (h : deliver t c p = .ok u) :
    (place c p.code).run.run t' = (.ok (if c.out = none then p.code else []), u) := by
  rw [deliver_of_map hmap] at h
  unfold place
  cases hout : c.out with
  | none =>
    rw [hout] at h
    rw [Except.ok.inj h]
    rfl
  | some path =>
    rw [hout] at h
    exact run_bind_ok (run_writeFile_ok h)

theorem run_place_error (hmap : deliverMap t c p = .ok t') (h : deliver t c p = .error e) :
    ∃ cause, (place c p.code).run.run t' = (.error cause, t') := by
  rw [deliver_of_map hmap] at h
  unfold place
  cases hout : c.out with
  | none =>
    rw [hout] at h
    cases h
  | some path =>
    rw [hout] at h
    obtain ⟨cause, hfail⟩ := run_writeFile_error h
    exact ⟨cause, run_bind_error hfail⟩

/-- A command brings out what the library makes of the texts that it names, and every command can
be asked for. -/
theorem execute_agrees (t : FileTree) (elapsed : Text) :
    (∀ arguments c, ofArguments false arguments = .ok c →
      Agrees t c ((execute FileTree.access (pure elapsed) arguments).run t).1
        ((execute FileTree.access (pure elapsed) arguments).run t).2) ∧
    ∀ c, (∀ p ∈ c.paths, p ≠ []) → ofArguments false (spelled c) = .ok c := by
  refine ⟨fun arguments c h => ?_, ofArguments_spelled⟩
  have hmakes := makes_produce t c
  generalize hp : product? t c = product at hmakes
  generalize hr : (produce FileTree.access c).run.run t = r at hmakes
  cases hmakes with
  | refused cause =>
    refine agrees_of_error h (run_bind_error (f := place c) hr) elapsed (fun _ => rfl) ?_
    intro p u hsome
    exact nomatch hp.symm.trans hsome
  | @made t' p hmap =>
    have hrun := run_bind_ok (f := place c) hr
    cases hplaced : deliver t c p with
    | ok u =>
      exact agrees_of_ok h (hrun.trans (run_place_ok hmap hplaced)) elapsed hp hplaced rfl
    | error e =>
      obtain ⟨cause, hfail⟩ := run_place_error hmap hplaced
      refine agrees_of_error h (hrun.trans hfail) elapsed (fun hnone => ?_) fun q u hq hu => ?_
      · exact nomatch hp.symm.trans hnone
      · obtain rfl := Option.some.inj (hq.symm.trans hp)
        exact nomatch hu.symm.trans hplaced
  | unwritten p hmap cause =>
    refine agrees_of_error h (run_bind_error (f := place c) hr) elapsed (fun _ => rfl) ?_
    intro q u hq hu
    obtain rfl := Option.some.inj (hq.symm.trans hp)
    unfold deliver at hu
    rw [hmap] at hu
    cases hu

/-- A gadget whose chunks are built in two formats. -/
def exampleTree : FileTree :=
  [("main.js".toList, .text "import \x7b a \x7d from \"\x00mw-userscript:vue\";\n".toList),
   ("gadget.json".toList,
     .text "\x7b\"name\":\"g\",\"entry\":\"main.js\",\"esmChunks\":true\x7d".toList),
   ("outer.js".toList, .text "(() => \x7b\n\t'script';\n\x7d)();\n".toList)]

/-- Rewritten code goes to its file and an entry is printed in its template. -/
theorem exampleTree_agrees :
    ((execute FileTree.access (pure []) ["rewrite".toList, "-uvue".toList, "-o".toList,
        "out.js".toList, "main.js".toList]).run exampleTree).2.read "out.js".toList =
      .ok "const __mw_module0 = require(\"vue\");const \x7b a \x7d = __mw_module0;\n".toList ∧
    ((execute FileTree.access (pure []) ["wrap".toList, "--config=gadget.json".toList,
        "--template=outer.js".toList, "main.js".toList]).run exampleTree).1.stdout =
      "(() => \x7b\n\nimport \x7b a \x7d from \"".toList ++
        "\x00mw-userscript:vue\";\n\n\n\x7d)();\n".toList := by
  constructor
  · have hagrees := (execute_agrees exampleTree []).1 ["rewrite".toList, "-uvue".toList,
      "-o".toList, "out.js".toList, "main.js".toList]
      (.require "main.js".toList ["vue".toList] none (some "out.js".toList)) (by decide +kernel)
    have hmade : (product? exampleTree (.require "main.js".toList ["vue".toList] none
        (some "out.js".toList))).map (·.code) =
        some ("const __mw_module0 = require(\"vue\");".toList ++
          "const \x7b a \x7d = __mw_module0;\n".toList) := by
      decide +kernel
    obtain ⟨p, hp, hcode⟩ := Option.map_eq_some_iff.mp hmade
    have hplaced : deliver exampleTree (.require "main.js".toList ["vue".toList] none
        (some "out.js".toList)) p = .ok (exampleTree ++ [("out.js".toList, .text p.code)]) := by
      change exampleTree.write "out.js".toList p.code = _
      rw [hcode]
      decide +kernel
    obtain ⟨-, -, hafter⟩ := hagrees.delivers hp hplaced
    rw [hafter, hcode]
    decide +kernel
  · have hagrees := (execute_agrees exampleTree []).1 ["wrap".toList,
      "--config=gadget.json".toList, "--template=outer.js".toList, "main.js".toList]
      (.wrap "main.js".toList "gadget.json".toList (some "outer.js".toList) none)
      (by decide +kernel)
    have hmade : product? exampleTree (.wrap "main.js".toList "gadget.json".toList
        (some "outer.js".toList) none) = some ⟨"(() => \x7b\n\nimport \x7b a \x7d from \"".toList ++
          "\x00mw-userscript:vue\";\n\n\n\x7d)();\n".toList, none⟩ := by
      decide +kernel
    obtain ⟨-, hstdout, -⟩ := hagrees.delivers hmade rfl
    rw [hstdout]
    decide +kernel

end Command
end GadgetBuild
