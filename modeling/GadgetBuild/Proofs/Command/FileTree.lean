import GadgetBuild.Command.FileTree

/-!
What was written to a file is what is read from it, by the same path.
-/

namespace GadgetBuild

namespace Table

variable {α : Type} {t : Table α}

theorem get?_put (key key' : Text) (value : α) :
    (t.put key value).get? key' = if key' = key then some value else t.get? key' := by
  induction t with
  | nil =>
    by_cases hk : key' = key
    · simp [put, get?, hk]
    · simp [put, get?, hk, Ne.symm hk]
  | cons entry t ih =>
    obtain ⟨k, v⟩ := entry
    unfold put
    by_cases hk : k = key
    · subst hk
      rw [if_pos rfl]
      by_cases hk' : key' = k
      · subst hk'
        simp [get?]
      · simp [get?, hk', Ne.symm hk']
    · rw [if_neg hk]
      by_cases hk' : key' = k
      · subst hk'
        simp [get?, hk]
      · have htail : ∀ u : Table α, get? key' ((k, v) :: u) = u.get? key' := fun u => by
          simp [get?, Ne.symm hk']
        rw [htail, htail, ih]

theorem any_put {key : Text} {value : α} (which : Text → Bool)
    (h : t.any (fun e => which e.1) = true) :
    (t.put key value).any (fun e => which e.1) = true := by
  induction t with
  | nil => cases h
  | cons entry t ih =>
    obtain ⟨k, v⟩ := entry
    rw [List.any_cons, Bool.or_eq_true] at h
    unfold put
    split
    · rw [List.any_cons, Bool.or_eq_true]
      exact h
    · rw [List.any_cons, Bool.or_eq_true]
      exact h.imp_right ih

end Table

namespace FileTree

variable {t : FileTree} {l : Location}

theorem node_put_self (h : l.names ≠ []) (habove : l.above = 0) (content : FileContent) :
    FileTree.node (t.put l.key content) l = .file content := by
  unfold node
  rw [if_neg h, if_neg (by omega), Table.get?_put, if_pos rfl]

/-- Directories stay when a file is put where none is. -/
theorem node_put_directory {k : Location} (hk : t.node k = .directory)
    (hl : t.node l ≠ .directory) (habove : l.above = 0) (content : FileContent) :
    FileTree.node (t.put l.key content) k = .directory := by
  unfold node at hk ⊢
  split
  · rfl
  rename_i hnames
  rw [if_neg hnames] at hk
  split
  · rename_i hup
    rw [if_pos hup] at hk
    cases hk
  rename_i hup
  rw [if_neg hup] at hk
  have hkey : k.key ≠ l.key := by
    intro he
    apply hl
    unfold node
    split
    · rfl
    · rw [if_neg (by omega), ← he]
      exact hk
  rw [Table.get?_put, if_neg hkey]
  split at hk
  · cases hk
  · split at hk
    · rename_i hbelow
      rw [if_pos (Table.any_put _ hbelow)]
    · cases hk

/-- A path leads where it led before. -/
theorem follow_put {k found : Location} (hl : t.node l ≠ .directory) (habove : l.above = 0)
    (content : FileContent) (h : t.follow k names = .ok found) :
    FileTree.follow (t.put l.key content) k names = .ok found := by
  fun_induction follow t k names with
  | case1 k => exact h
  | case2 k name => exact h
  | case3 k name rest hne hnode ih =>
    rw [follow, node_put_directory hnode hl habove]
    · exact ih h
    · exact hne
  | case4 k name rest hne content hnode => cases h
  | case5 k name rest hne hnode => cases h

theorem locate_put {found : Location} (hl : t.node l ≠ .directory) (habove : l.above = 0)
    (content : FileContent) (h : t.locate path = .ok found) :
    FileTree.locate (t.put l.key content) path = .ok found :=
  follow_put hl habove content h

theorem read_eq_ok_iff : t.read path = .ok content ↔ ∃ l, t.locate path = .ok l ∧
    t.node l = .file (.text content) ∧ endsInSlash path = false := by
  unfold read
  cases hlocate : t.locate path with
  | error e => simp [bind, Except.bind]
  | ok l =>
    simp only [bind, Except.bind, Except.ok.injEq, exists_eq_left']
    cases hnode : t.node l with
    | directory => simp [throw, throwThe, MonadExceptOf.throw]
    | missing => simp [throw, throwThe, MonadExceptOf.throw]
    | file c =>
      cases hslash : endsInSlash path with
      | true => simp [throw, throwThe, MonadExceptOf.throw]
      | false =>
        cases c with
        | binary => simp [throw, throwThe, MonadExceptOf.throw]
        | text u => simp [pure, Except.pure]

/-- A write is to a place that is no directory, and what it puts there is not seen above the
tree. -/
theorem write_eq_ok_iff : t.write path content = .ok t' ↔ ∃ l, t.locate path = .ok l ∧
    t.node l ≠ .directory ∧ endsInSlash path = false ∧
    t' = if 0 < l.above then t else t.put l.key (.text content) := by
  unfold write
  cases hlocate : t.locate path with
  | error e => simp [bind, Except.bind]
  | ok l =>
    simp only [bind, Except.bind, Except.ok.injEq, exists_eq_left']
    by_cases hbad : t.node l = .directory ∨ endsInSlash path = true
    · rw [if_pos hbad]
      simp only [throw, throwThe, MonadExceptOf.throw, reduceCtorEq, false_iff]
      rintro ⟨hnode, hslash, -⟩
      rcases hbad with hbad | hbad
      · exact hnode hbad
      · rw [hslash] at hbad
        cases hbad
    · rw [if_neg hbad]
      obtain ⟨hnode, hslash⟩ := not_or.mp hbad
      have hslash : endsInSlash path = false := by simpa using hslash
      by_cases habove : 0 < l.above
      · simp [hnode, hslash, habove, pure, Except.pure, eq_comm]
      · simp [hnode, hslash, habove, pure, Except.pure, eq_comm]

/-- What was written is read back, unless it went above the tree. -/
theorem read_of_write (h : t.write path content = .ok t') :
    ∃ l, t'.locate path = .ok l ∧ (l.above = 0 → t'.read path = .ok content) := by
  obtain ⟨l, hlocate, hnode, hslash, rfl⟩ := write_eq_ok_iff.mp h
  have hnames : l.names ≠ [] := by
    intro hnames
    exact hnode (if_pos hnames)
  split
  · exact ⟨l, hlocate, fun habove => absurd habove (by omega)⟩
  · rename_i habove
    have habove : l.above = 0 := by omega
    have hthere := locate_put hnode habove (.text content) hlocate
    exact ⟨l, hthere, fun _ => read_eq_ok_iff.mpr
      ⟨l, hthere, node_put_self hnames habove (.text content), hslash⟩⟩

end FileTree
end GadgetBuild
