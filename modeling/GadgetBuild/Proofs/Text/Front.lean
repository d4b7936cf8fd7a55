import Mathlib.Data.List.Basic
import Mathlib.Data.List.Induction
import GadgetBuild.External
import GadgetBuild.Proofs.Text.Offsets
import GadgetBuild.Text.Search

/-!
What stands at the front of a text: a given text, a run of characters up to the first that ends it,
the pieces up to a separator. What stands at the end of one text and goes on in the next.
-/

namespace GadgetBuild.Text

theorem after?_eq_some_iff {lead t : Text} : after? lead t = some rest ↔ t = lead ++ rest := by
  rw [after?, List.isPrefixOf?_eq_some_iff_append_eq, eq_comm]

@[simp] theorem after?_append (lead rest : Text) : after? lead (lead ++ rest) = some rest :=
  after?_eq_some_iff.mpr rfl

/-- A run ends before the first character that is none of it. -/
theorem takeWhile_append_cons {run : Text} {which : Char → Bool} (h : ∀ c ∈ run, which c = true)
    (hd : which d = false) (rest : Text) : (run ++ d :: rest).takeWhile which = run := by
  rw [List.takeWhile_append_of_pos h, List.takeWhile_cons_of_neg (by simp [hd]), List.append_nil]

theorem dropWhile_append_cons {run : Text} {which : Char → Bool} (h : ∀ c ∈ run, which c = true)
    (hd : which d = false) (rest : Text) : (run ++ d :: rest).dropWhile which = d :: rest := by
  rw [List.dropWhile_append_of_pos h, List.dropWhile_cons_of_neg (by simp [hd])]

theorem mem_takeWhile {t : Text} {which : Char → Bool} (h : c ∈ t.takeWhile which) :
    which c = true :=
  List.all_eq_true.mp List.all_takeWhile c h

/-- A text cut where a run of characters ends. -/
theorem split_run {t : Text} {which : Char → Bool} (h : t.dropWhile which = d :: rest) :
    t = t.takeWhile which ++ d :: rest ∧ which d = false := by
  have hd := List.head?_dropWhile_not which t
  rw [h] at hd
  refine ⟨?_, by simpa using hd⟩
  rw [← h, List.takeWhile_append_dropWhile]

theorem all_ne {t : Text} (h : d ∉ t) : ∀ c ∈ t, decide (c ≠ d) = true := by
  intro c hc
  refine decide_eq_true fun he => h ?_
  rwa [← he]

/-- A text has one first character that ends a run. -/
theorem run_unique {p r : Text} {which : Char → Bool} (h : p ++ a :: q = r ++ b :: s)
    (hp : ∀ c ∈ p, which c = true) (hr : ∀ c ∈ r, which c = true) (ha : which a = false)
    (hb : which b = false) : p = r ∧ a = b ∧ q = s := by
  have htake := takeWhile_append_cons hp ha q
  have hdrop := dropWhile_append_cons hp ha q
  rw [h, takeWhile_append_cons hr hb s] at htake
  rw [h, dropWhile_append_cons hr hb s] at hdrop
  obtain ⟨hab, hqs⟩ := List.cons.inj hdrop
  exact ⟨htake.symm, hab.symm, hqs.symm⟩

/-- A text has one last character that begins a run. -/
theorem last_run_unique {p r : Text} {which : Char → Bool} (h : q ++ a :: p = s ++ b :: r)
    (hp : ∀ c ∈ p, which c = true) (hr : ∀ c ∈ r, which c = true) (ha : which a = false)
    (hb : which b = false) : p = r := by
  have hreverse := congrArg List.reverse h
  rw [List.reverse_append, List.reverse_cons, List.append_assoc, List.reverse_append,
    List.reverse_cons, List.append_assoc] at hreverse
  exact List.reverse_injective (run_unique hreverse (fun c hc => hp c (List.mem_reverse.mp hc))
    (fun c hc => hr c (List.mem_reverse.mp hc)) ha hb).1

/-- A beginning without a character does not reach beyond it. -/
theorem exists_append_of_notMem {u v : Text} (h : u ++ r = v ++ b :: w) (hb : b ∉ u) :
    ∃ m, v = u ++ m := by
  rcases List.append_eq_append_iff.mp h with ⟨m, hv, _⟩ | ⟨m, hu, hm⟩
  · exact ⟨m, hv⟩
  · cases m with
    | nil => exact ⟨[], by simpa using hu.symm⟩
    | cons c m =>
      obtain ⟨rfl, _⟩ := List.cons.inj hm
      exact absurd (hu ▸ List.mem_append_right _ List.mem_cons_self) hb

/-- Nothing follows a character that stands nowhere but at the end. -/
theorem eq_nil_of_last {p u : Text} (h : p ++ a :: q = u ++ [b]) (ha : a ∉ u) : q = [] := by
  cases q using List.reverseRecOn with
  | nil => rfl
  | append_singleton q c =>
    rw [← List.cons_append, ← List.append_assoc] at h
    obtain ⟨hu, _⟩ := List.append_inj' h rfl
    exact absurd (hu ▸ List.mem_append_right _ List.mem_cons_self) ha

/-- An end of two texts together is an end of the second, or begins inside the first. -/
theorem suffix_append_cases {a b q : Text} (h : q <:+ a ++ b) :
    q <:+ b ∨ ∃ p, p ≠ [] ∧ p <:+ a ∧ q = p ++ b := by
  obtain ⟨u, hu⟩ := h
  rcases List.append_eq_append_iff.mp hu with ⟨m, rfl, rfl⟩ | ⟨m, rfl, rfl⟩
  · by_cases hm : m = []
    · subst hm
      exact Or.inl (List.suffix_refl b)
    · exact Or.inr ⟨m, hm, List.suffix_append u m, rfl⟩
  · exact Or.inl (List.suffix_append m q)

/-- No end of the first text begins the second. -/
def Apart (x t : Text) : Prop :=
  ∀ m, m <:+ x → m <+: t → m = []

theorem apart_of_notMem (h : c ∉ x) (t : Text) : Apart x (c :: t) := by
  intro m hx ht
  cases m with
  | nil => rfl
  | cons d m =>
    obtain ⟨_, he⟩ := ht
    obtain ⟨rfl, _⟩ := List.cons.inj he
    exact absurd (hx.subset List.mem_cons_self) h

/-- What begins before the second text and reaches it is not the first. -/
theorem Apart.split {g : Text} (h : Apart x t) (he : g ++ t = x ++ y) :
    ∃ m, g = x ++ m ∧ y = m ++ t := by
  rcases List.append_eq_append_iff.mp he with ⟨m, hx, ht⟩ | ⟨m, hg, hy⟩
  · obtain rfl := h m ⟨g, hx.symm⟩ ⟨y, ht.symm⟩
    exact ⟨[], by simpa using hx.symm, by simpa using ht.symm⟩
  · exact ⟨m, hg, hy⟩

theorem piecesFrom_ne_nil (needle : Text) (skip : Nat) (t : Text) :
    piecesFrom needle skip t ≠ [] := by
  fun_induction piecesFrom needle skip t with
  | case1 => simp
  | case2 skip c t ih => exact ih
  | case3 c t hc => simp
  | case4 c t hc he => simp
  | case5 c t hc p ps he => simp

/-- The pieces between the occurrences of a separator, put together with it, are the text. -/
theorem intercalate_piecesFrom (hn : needle ≠ []) (skip : Nat) (t : Text) :
    List.intercalate needle (piecesFrom needle skip t) = t.drop skip := by
  fun_induction piecesFrom needle skip t with
  | case1 skip => simp
  | case2 skip c t ih => simpa using ih
  | case3 c t hc ih =>
    obtain ⟨rest, hrest⟩ := List.isPrefixOf_iff_prefix.mp hc
    obtain ⟨p, ps, hp⟩ :=
      List.exists_cons_of_ne_nil (piecesFrom_ne_nil needle (needle.length - 1) t)
    obtain ⟨d, lead, rfl⟩ := List.exists_cons_of_ne_nil hn
    obtain ⟨rfl, rfl⟩ := List.cons.inj hrest
    rw [hp] at ih ⊢
    rw [List.intercalate_cons_cons, ih]
    simp
  | case4 c t hc he => exact absurd he (piecesFrom_ne_nil needle 0 t)
  | case5 c t hc p ps he ih =>
    rw [he] at ih
    rw [List.drop_zero] at ih ⊢
    rw [← ih]
    cases ps with
    | nil => simp
    | cons q ps => simp [List.intercalate_cons_cons]

theorem intercalate_pieces (hn : needle ≠ []) (t : Text) :
    List.intercalate needle (t.pieces needle) = t :=
  intercalate_piecesFrom hn 0 t

end GadgetBuild.Text

namespace GadgetBuild.ExternalModule

/-- Either spelling of a virtual id's beginning. -/
def IsLead (lead : Text) : Prop :=
  lead = virtualLead ∨ lead = servedLead

theorem afterLead?_eq_some_iff {t : Text} :
    afterLead? t = some (lead, rest) ↔ IsLead lead ∧ t = lead ++ rest := by
  unfold afterLead? IsLead
  constructor
  · intro h
    split at h
    · rename_i found hv
      obtain ⟨rfl, rfl⟩ := Prod.mk.inj (Option.some.inj h)
      exact ⟨Or.inl rfl, Text.after?_eq_some_iff.mp hv⟩
    · obtain ⟨found, hs, he⟩ := Option.map_eq_some_iff.mp h
      obtain ⟨rfl, rfl⟩ := Prod.mk.inj he
      exact ⟨Or.inr rfl, Text.after?_eq_some_iff.mp hs⟩
  · rintro ⟨rfl | rfl, rfl⟩
    · rw [Text.after?_append]
    · have hv : Text.after? virtualLead (servedLead ++ rest) = none := rfl
      rw [hv, Text.after?_append]
      rfl

end GadgetBuild.ExternalModule
