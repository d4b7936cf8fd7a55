import GadgetBuild.Session

/-!
Runs of calls, for any plugin. A run is cut anywhere into two runs, and each answer is that of one
call in the session behind the calls before it.
-/

namespace GadgetBuild.Session

variable {σ : Type} {p : Plugin σ} {s : Session σ} {calls : List Call}

theorem run_cons (p : Plugin σ) (s : Session σ) (call : Call) (calls : List Call) :
    s.run p (call :: calls) =
      (((s.step p call).1.run p calls).1, (s.step p call).2 :: ((s.step p call).1.run p calls).2) :=
  rfl

theorem run_append (p : Plugin σ) (s : Session σ) (calls more : List Call) :
    s.run p (calls ++ more) = (((s.run p calls).1.run p more).1,
      (s.run p calls).2 ++ ((s.run p calls).1.run p more).2) := by
  induction calls generalizing s with
  | nil => rfl
  | cons call calls ih => rw [List.cons_append, run_cons, run_cons, ih, List.cons_append]

theorem length_run (p : Plugin σ) (s : Session σ) (calls : List Call) :
    (s.run p calls).2.length = calls.length := by
  induction calls generalizing s with
  | nil => rfl
  | cons call calls ih => rw [run_cons, List.length_cons, List.length_cons, ih]

/-- Each answer is that of its call in the session behind the calls before it. -/
theorem answer_eq (h : calls[i]? = some call) :
    (s.run p calls).2[i]? = some ((s.run p (calls.take i)).1.step p call).2 := by
  obtain ⟨hi, hcall⟩ := List.getElem?_eq_some_iff.mp h
  have hsplit : calls = calls.take i ++ call :: calls.drop (i + 1) := by
    rw [← hcall, ← List.drop_eq_getElem_cons hi, List.take_append_drop]
  have hlength : ((s.run p (calls.take i)).2).length = i := by
    rw [length_run, List.length_take_of_le (Nat.le_of_lt hi)]
  have hrun := congrArg Prod.snd (run_append p s (calls.take i) (call :: calls.drop (i + 1)))
  rw [← hsplit] at hrun
  rw [hrun, List.getElem?_append_right (Nat.le_of_eq hlength), hlength, Nat.sub_self, run_cons]
  rfl

end GadgetBuild.Session
