import GadgetBuild.Proofs.Overlay.Links

/-!
Walks along the links of a chain that may lead in circles. A walk that comes to an end comes to no
segment twice, so that as many steps as there are segments are enough.
-/

namespace GadgetBuild.Overlay

namespace Links

/-- No link leads out of the list. -/
def Closed (l : Links) (nodes : List Nat) : Prop :=
  ∀ a ∈ nodes, ∀ b ∈ l.get a, b ∈ nodes

variable {l : Links} {stop : Option Nat}

/-- A segment on a path is the first, or the one before links to it. -/
theorem Lead.before {p q : List Nat} (h : l.Lead (p ++ a :: q) stop) :
    p = [] ∨ ∃ p' b, p = p' ++ [b] ∧ l.get b = some a := by
  cases p using List.reverseRecOn with
  | nil => exact Or.inl rfl
  | append_singleton p b =>
    exact Or.inr ⟨p, b, rfl, (lead_append.mp (lead_append.mp h).1).2.1⟩

theorem Lead.subset {path : List Nat} (h : l.Lead path stop) (hclosed : l.Closed nodes)
    (hhead : ∀ b ∈ path.head?, b ∈ nodes) : path ⊆ nodes := by
  induction path with
  | nil => exact List.nil_subset _
  | cons a path ih =>
    have ha := hhead a rfl
    refine List.cons_subset.mpr ⟨ha, ih h.2 fun b hb => hclosed a ha b ?_⟩
    rw [h.1, Option.mem_def.mp hb]
    rfl

/-- The links say where a path goes. -/
theorem Lead.eq_of_head {path path' : List Nat} (h : l.Lead path stop) (h' : l.Lead path' stop)
    (hstop : ∀ k ∈ path ++ path', some k ≠ stop)
    (hhead : path.head?.or stop = path'.head?.or stop) : path = path' := by
  induction path generalizing path' with
  | nil =>
    cases path' with
    | nil => rfl
    | cons a path' => exact absurd hhead.symm (hstop a (by simp))
  | cons a path ih =>
    cases path' with
    | nil => exact absurd hhead (hstop a (by simp))
    | cons b path' =>
      obtain rfl : a = b := Option.some.inj hhead
      refine congrArg _ (ih h.2 h'.2 (fun k hk => hstop k ?_) (h.1.symm.trans h'.1))
      rcases List.mem_append.mp hk with hk | hk <;> simp [hk]

/-- A path that comes to an end comes to no segment twice. -/
theorem Lead.nodup {path : List Nat} (h : l.Lead path stop) (hstop : ∀ k ∈ path, some k ≠ stop) :
    path.Nodup := by
  induction path with
  | nil => exact List.nodup_nil
  | cons a path ih =>
    refine List.nodup_cons.mpr ⟨fun ha => ?_, ih h.2 fun k hk => hstop k (by simp [hk])⟩
    -- From `a` on, the path would be as long as the rest of it from where it comes to `a` again.
    obtain ⟨p, q, rfl⟩ := List.append_of_mem ha
    have hrest : l.Lead (a :: q) stop := (lead_append.mp h.2).2
    have he := h.eq_of_head hrest (fun k hk => hstop k (by
      simp only [List.mem_append, List.mem_cons] at hk ⊢
      tauto)) rfl
    have := congrArg List.length he
    simp at this
    omega

end Links

namespace Chain

variable {c : Chain} {stop link : Option Nat}

theorem Leads.of_lead (hfirst : some c.first = l.head?) (h : c.next.Lead l none) : c.Leads l :=
  ⟨h.nodup (by simp), hfirst, h⟩

theorem Leads.of_walk (h : c.walk none n (some c.first) = some l) : c.Leads l := by
  obtain ⟨hfirst, hlead, -⟩ := walk_eq_some_iff.mp h
  exact .of_lead (by simpa using hfirst) hlead

/-- A walk that ends does so with as many steps as there are segments. -/
theorem walk_of_ends {path : List Nat} (h : c.walk stop n link = some path)
    (hclosed : c.next.Closed nodes) (hlink : ∀ b ∈ link, b ∈ nodes) :
    c.walk stop nodes.length link = some path := by
  obtain ⟨rfl, hlead, -, hstop⟩ := walk_eq_some_iff.mp h
  have hsub : path ⊆ nodes := hlead.subset hclosed fun b hb =>
    hlink b (by simp [Option.mem_def.mp hb])
  exact walk_eq_some_iff.mpr
    ⟨rfl, hlead, (hlead.nodup hstop).length_le_of_subset hsub, hstop⟩

/-- A new segment behind one that is not on the path is not on the path. -/
theorem Leads.insertAfter_of_notMem (h : c.Leads l) (ha : a ∉ l) (hb : b ∉ l) :
    (c.insertAfter a b).Leads l where
  nodup := h.nodup
  first := h.first
  next := h.next.congr fun k hk => by
    have hak : a ≠ k := fun he => ha (he ▸ hk)
    have hbk : b ≠ k := fun he => hb (he ▸ hk)
    simp [Chain.insertAfter, Links.get_set, hak, hbk]

/-- The links that a move may set: to the target, to the moved run and to what was behind it. -/
def moveLinks (c : Chain) (a b : Nat) (target : Option Nat) : List (Option Nat) :=
  [target, some a, c.next.get b]

/-- A move sets no other links forward. -/
theorem move_links (h : c.move a b target = some c') :
    (c'.first = c.first ∨ some c'.first ∈ c.moveLinks a b target) ∧
      ∀ k, c'.next.get k = c.next.get k ∨ c'.next.get k ∈ c.moveLinks a b target := by
  unfold move at h
  split at h
  · obtain rfl := Option.some.inj h
    exact ⟨Or.inl rfl, fun _ => Or.inl rfl⟩
  simp only [bind, Option.bind_eq_some_iff, pure, Option.some.injEq] at h
  obtain ⟨first, hfirst, last, -, rfl⟩ := h
  have hnext : ∀ {oldLeft newLeft k}, ((c.next.setAt oldLeft (c.next.get b)).setAt newLeft
      (some a)).get k = c.next.get k ∨ ((c.next.setAt oldLeft (c.next.get b)).setAt newLeft
      (some a)).get k ∈ c.moveLinks a b target := by
    intro oldLeft newLeft k
    simp only [Links.get_setAt, moveLinks]
    split_ifs <;> simp
  refine ⟨?_, fun k => ?_⟩
  · dsimp only
    split
    · simp [moveLinks]
    · split at hfirst
      · rw [← hfirst]
        refine Or.inr (hnext.elim (fun he => ?_) id)
        simp [he, moveLinks]
      · exact Or.inl (Option.some.inj hfirst).symm
  · rw [Links.get_set]
    split
    · simp [moveLinks]
    · exact hnext

end Chain
end GadgetBuild.Overlay
