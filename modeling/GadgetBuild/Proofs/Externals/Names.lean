import Mathlib.Data.List.Induction
import Mathlib.Data.List.TakeWhile
import GadgetBuild.Proofs.Plugin.Externals

/-!
Which modules a list of names makes external. Each name counts once, where it stands first, the
scope of Vue comes with Vue, and a name that is a scope stands for all packages in it.
-/

namespace GadgetBuild.Externals

variable {e : Externals} {listed names : List Text} {source name : Text}

/-- The names are those of a list, each once and in the order in which they first stand there. -/
structure FirstOccurrences (listed names : List Text) : Prop where
  mem_iff : ∀ name, name ∈ names ↔ name ∈ listed
  ordered : names.Pairwise fun a b => listed.idxOf a < listed.idxOf b
  nodup : names.Nodup := ordered.imp fun hlt he => Nat.ne_of_lt hlt (congrArg listed.idxOf he)

/-- A source is the name of a package in a scope that is one of the names. -/
def ScopeListed (names : List Text) (source : Text) : Prop :=
  ∃ scope package, '/' ∉ scope ∧ '@' :: scope ∈ names ∧ source = '@' :: scope ++ '/' :: package

theorem FirstOccurrences.old (h : FirstOccurrences listed names) (hname : name ∈ listed) :
    FirstOccurrences (listed ++ [name]) names where
  mem_iff n := by
    rw [h.mem_iff, List.mem_append, List.mem_singleton]
    exact ⟨.inl, fun hn => hn.elim id fun he => he ▸ hname⟩
  ordered := h.ordered.imp_of_mem fun ha hb hlt => by
    rwa [List.idxOf_append_of_mem ((h.mem_iff _).mp ha),
      List.idxOf_append_of_mem ((h.mem_iff _).mp hb)]

theorem FirstOccurrences.new (h : FirstOccurrences listed names) (hname : name ∉ listed) :
    FirstOccurrences (listed ++ [name]) (names ++ [name]) where
  mem_iff n := by rw [List.mem_append, List.mem_append, h.mem_iff]
  ordered := by
    have hlast : (listed ++ [name]).idxOf name = listed.length := by
      rw [List.idxOf_append_of_notMem hname, List.idxOf_cons_self, Nat.add_zero]
    refine List.pairwise_append.mpr ⟨?_, List.pairwise_singleton _ _, fun a ha b hb => ?_⟩
    · refine h.ordered.imp_of_mem fun ha hb hlt => ?_
      rwa [List.idxOf_append_of_mem ((h.mem_iff _).mp ha),
        List.idxOf_append_of_mem ((h.mem_iff _).mp hb)]
    · obtain rfl := List.mem_singleton.mp hb
      have hmem := (h.mem_iff a).mp ha
      rw [hlast, List.idxOf_append_of_mem hmem]
      exact List.idxOf_lt_length_of_mem hmem

theorem firstOccurrences_eraseDups (listed : List Text) :
    FirstOccurrences listed listed.eraseDups := by
  induction listed using List.reverseRecOn with
  | nil => exact { mem_iff := fun _ => .rfl, ordered := .nil }
  | append_singleton listed name ih =>
    rw [List.eraseDups_append, List.removeAll]
    by_cases hname : name ∈ listed
    · simpa [hname] using ih.old hname
    · simpa [hname, List.eraseDups_cons] using ih.new hname

/-- The names of a list, and behind them the scope of Vue if Vue is listed without it. -/
theorem names_ofList (listed : List Text) : (ofList listed).names =
    listed.eraseDups ++ if vue ∈ listed ∧ vueScope ∉ listed then [vueScope] else [] := by
  unfold ofList
  simp only [List.mem_eraseDups]
  split
  · rfl
  · exact (List.append_nil _).symm

theorem mem_names_ofList : name ∈ (ofList listed).names ↔
    name ∈ listed ∨ name = vueScope ∧ vue ∈ listed := by
  rw [names_ofList, List.mem_append, List.mem_eraseDups]
  split
  · rename_i h
    simp [h.1]
  · rename_i h
    refine ⟨fun hname => .inl (hname.resolve_right List.not_mem_nil), fun hname => .inl ?_⟩
    rcases hname with hname | ⟨rfl, hvue⟩
    · exact hname
    · exact Decidable.byContradiction fun hno => h ⟨hvue, hno⟩

/-- The scope of a source is what stands before its first slash, behind the sign of scopes. -/
theorem scopeOf?_eq_some_iff {signed : Text} : scopeOf? source = some signed ↔
    ∃ scope package, '/' ∉ scope ∧ signed = '@' :: scope ∧
      source = '@' :: scope ++ '/' :: package := by
  constructor
  · intro h
    unfold scopeOf? at h
    split at h
    · rename_i t
      split at h
      · rename_i hslash
        cases hrest : t.dropWhile (· ≠ '/') with
        | nil =>
          have hall := List.dropWhile_eq_nil_iff.mp hrest '/' hslash
          simp at hall
        | cons c package =>
          obtain ⟨ht, hc⟩ := Text.split_run hrest
          obtain rfl : c = '/' := by simpa using hc
          refine ⟨t.takeWhile (· ≠ '/'), package, fun hmem => ?_, (Option.some.inj h).symm, ?_⟩
          · simpa using Text.mem_takeWhile hmem
          · rw [List.cons_append, ← ht]
      · cases h
    · cases h
  · rintro ⟨scope, package, hscope, rfl, rfl⟩
    have htake : (scope ++ '/' :: package).takeWhile (· ≠ '/') = scope :=
      Text.takeWhile_append_cons (Text.all_ne hscope) (decide_eq_false (by simp)) package
    rw [List.cons_append]
    unfold scopeOf?
    simp only
    rw [if_pos (List.mem_append_right scope List.mem_cons_self), htake]

theorem contains_iff :
    e.contains source = true ↔ source ∈ e.names ∨ ScopeListed e.names source := by
  unfold contains ScopeListed
  rw [Bool.or_eq_true, decide_eq_true_iff, Option.any_eq_true]
  simp only [scopeOf?_eq_some_iff, decide_eq_true_iff]
  constructor
  · rintro (h | ⟨_, ⟨scope, package, hscope, rfl, hsource⟩, hmem⟩)
    · exact .inl h
    · exact .inr ⟨scope, package, hscope, hmem, hsource⟩
  · rintro (h | ⟨scope, package, hscope, hmem, hsource⟩)
    · exact .inl h
    · exact .inr ⟨_, ⟨scope, package, hscope, rfl, hsource⟩, hmem⟩

/-- What is external depends on which names are there and not on their order. -/
theorem contains_congr {e' : Externals} (h : ∀ name, name ∈ e.names ↔ name ∈ e'.names)
    (source : Text) : e.contains source = e'.contains source := by
  rw [Bool.eq_iff_iff, contains_iff, contains_iff, ScopeListed, ScopeListed, h]
  simp only [h]

/-- What a list of names makes external, and what an import of it stands for. -/
structure Externalizes (listed : List Text) : Prop where
  names : ∃ once, FirstOccurrences listed once ∧ (ofList listed).names =
    once ++ if vue ∈ listed ∧ vueScope ∉ listed then [vueScope] else []
  contains : ∀ source, (ofList listed).contains source = true ↔
    source ∈ (ofList listed).names ∨ ScopeListed (ofList listed).names source
  resolves : ∀ source, ((ofList listed).resolve? source).isSome =
    (ofList listed).contains source
  name : ∀ source m, (ofList listed).resolve? source = some m → m.name = source
  anyOrder : ∀ listed', (∀ name, name ∈ listed' ↔ name ∈ listed) → ∀ source,
    (ofList listed').contains source = (ofList listed).contains source ∧
      (ofList listed').resolve? source = (ofList listed).resolve? source

/-- A list of names makes external those names and the packages in those that are scopes, whatever
its order and its repetitions, and an external module keeps the name that it is imported by. -/
theorem ofList_externalizes (listed : List Text) : Externalizes listed where
  names := ⟨listed.eraseDups, firstOccurrences_eraseDups listed, names_ofList listed⟩
  contains _ := contains_iff
  resolves source := by
    rw [resolve?]
    cases (ofList listed).contains source <;> rfl
  name source m h := by rw [(resolve?_eq_some_iff.mp h).2]
  anyOrder listed' h source := by
    have hcontains : (ofList listed').contains source = (ofList listed).contains source := by
      refine contains_congr (fun name => ?_) source
      rw [mem_names_ofList, mem_names_ofList, h, h]
    exact ⟨hcontains, by rw [resolve?, resolve?, hcontains]⟩

end GadgetBuild.Externals
