import Mathlib.Data.List.Induction
import Mathlib.Data.List.Nodup
import GadgetBuild.Overlay.Chain

/-!
A chain's links against the list of segments in the order shown. The links forward lead through
the list, those backward through its reverse, and each operation of a chain is one of the list.
The exception is a move to where the run already stands.
-/

namespace GadgetBuild.Overlay

namespace Links

theorem get_setAt {l : Links} :
    (l.setAt a v).get b = if a = some b then v else l.get b := by
  cases a with
  | none => simp [setAt]
  | some a => simp [setAt, set, get]

theorem get_set {l : Links} : (l.set a v).get b = if a = b then v else l.get b := by
  simp [set, get]

theorem get_setAt_getLast_of_notMem {l : Links} {path : List Nat} (h : b ∉ path) :
    (l.setAt path.getLast? v).get b = l.get b := by
  rw [get_setAt, if_neg fun he => h (List.mem_of_getLast? he)]

theorem get_setAt_head_of_notMem {l : Links} {path : List Nat} (h : b ∉ path) :
    (l.setAt path.head? v).get b = l.get b := by
  rw [get_setAt, if_neg fun he : path.head? = some b => h (List.mem_of_mem_head? he)]

theorem set_eq_setAt (l : Links) : l.set a v = l.setAt (some a) v := rfl

/-- Links lead through a list, and from its last member on to `stop`. -/
def Lead (l : Links) : List Nat → Option Nat → Prop
  | [], _ => True
  | a :: path, stop => l.get a = path.head?.or stop ∧ l.Lead path stop

theorem lead_append {l : Links} :
    l.Lead (first ++ next) stop ↔ l.Lead first (next.head?.or stop) ∧ l.Lead next stop := by
  induction first with
  | nil => simp [Lead]
  | cons a first ih => simp [Lead, ih, and_assoc, Option.or_assoc]

/-- Links of other segments do not matter. -/
theorem Lead.congr {l l' : Links} (h : l.Lead path stop)
    (hget : ∀ k ∈ path, l'.get k = l.get k) : l'.Lead path stop := by
  induction path with
  | nil => trivial
  | cons a path ih =>
    refine ⟨?_, ih h.2 fun k hk => hget k (List.mem_cons_of_mem a hk)⟩
    rw [hget a (by simp)]
    exact h.1

/-- The link of the last member is all that it takes to lead elsewhere. -/
theorem Lead.congr_last {l l' : Links} (h : l.Lead path stop) (hn : path.Nodup)
    (hlast : ∀ k, path.getLast? = some k → l'.get k = stop')
    (hget : ∀ k ∈ path, path.getLast? ≠ some k → l'.get k = l.get k) : l'.Lead path stop' := by
  induction path with
  | nil => trivial
  | cons a path ih =>
    obtain ⟨ha, hp⟩ := List.nodup_cons.mp hn
    cases path with
    | nil => exact ⟨hlast a rfl, trivial⟩
    | cons b path =>
      have he : (a :: b :: path).getLast? = (b :: path).getLast? := by simp
      rw [he] at hlast hget
      refine ⟨?_, ih h.2 hp hlast fun k hk => hget k (List.mem_cons_of_mem a hk)⟩
      rw [hget a (by simp) fun hl => ha (List.mem_of_getLast? hl)]
      exact h.1

theorem Lead.setAt_other {l : Links} (h : l.Lead path stop) (ha : ∀ b, a = some b → b ∉ path) :
    (l.setAt a v).Lead path stop :=
  h.congr fun b hb => (by rw [get_setAt, if_neg fun he => ha b he hb])

theorem Lead.setAt_last {l : Links} (h : l.Lead path stop) (hn : path.Nodup) :
    (l.setAt path.getLast? v).Lead path v :=
  h.congr_last hn (fun k hk => (by rw [get_setAt, if_pos hk]))
    fun k _ hk => (by rw [get_setAt, if_neg hk])

theorem Lead.setAt_getLast_other {l : Links} {other : List Nat} (h : l.Lead path stop)
    (hd : other.Disjoint path) : (l.setAt other.getLast? v).Lead path stop :=
  h.setAt_other fun _ hb hm => hd (List.mem_of_getLast? hb) hm

/-- The links of a list before and after the runs `u` and `v` in it change places. -/
structure Exchanged (l l' : Links) (p u v r : List Nat) : Prop where
  before : ∀ k, p.getLast? = some k → l'.get k = v.head?
  left : ∀ k, u.getLast? = some k → l'.get k = r.head?
  right : ∀ k, v.getLast? = some k → l'.get k = u.head?
  other : ∀ k, p.getLast? ≠ some k → u.getLast? ≠ some k → v.getLast? ≠ some k →
    l'.get k = l.get k

theorem getLast?_ne {p q : List Nat} (hd : p.Disjoint q) (hk : k ∈ p) : q.getLast? ≠ some k :=
  fun hq => hd hk (List.mem_of_getLast? hq)

theorem Lead.exchange {l l' : Links} {p u v r : List Nat}
    (h : l.Lead (p ++ (u ++ (v ++ r))) none) (hn : (p ++ (u ++ (v ++ r))).Nodup) (hu : u ≠ [])
    (hv : v ≠ []) (he : Exchanged l l' p u v r) : l'.Lead (p ++ (v ++ (u ++ r))) none := by
  simp only [List.nodup_append', List.disjoint_append_right] at hn
  obtain ⟨hp, ⟨hun, ⟨hvn, hr, hvr⟩, huv, hur⟩, hpu, hpv, hpr⟩ := hn
  simp only [lead_append] at h ⊢
  obtain ⟨a, ha⟩ := Option.ne_none_iff_exists'.mp (List.head?_eq_none_iff.not.mpr hu)
  obtain ⟨b, hb⟩ := Option.ne_none_iff_exists'.mp (List.head?_eq_none_iff.not.mpr hv)
  refine ⟨?_, ?_, ?_, ?_⟩
  · apply h.1.congr_last hp (by simpa [hb] using he.before)
    intro k hk hl
    exact he.other k hl (getLast?_ne hpu hk) (getLast?_ne hpv hk)
  · apply h.2.2.1.congr_last hvn (by simpa [ha] using he.right)
    intro k hk hl
    exact he.other k (getLast?_ne (List.disjoint_symm hpv) hk)
      (getLast?_ne (List.disjoint_symm huv) hk) hl
  · apply h.2.1.congr_last hun (by simpa using he.left)
    intro k hk hl
    exact he.other k (getLast?_ne (List.disjoint_symm hpu) hk) hl (getLast?_ne huv hk)
  · apply h.2.2.2.congr
    intro k hk
    exact he.other k (getLast?_ne (List.disjoint_symm hpr) hk)
      (getLast?_ne (List.disjoint_symm hur) hk) (getLast?_ne (List.disjoint_symm hvr) hk)

/-- The three links that an exchange takes, the last of `u` set at the end. -/
theorem exchanged_left {l : Links} {p u v r : List Nat} (hpu : p.Disjoint u) (hpv : p.Disjoint v)
    (huv : u.Disjoint v) :
    Exchanged l (((l.setAt p.getLast? v.head?).setAt v.getLast? u.head?).setAt u.getLast? r.head?)
      p u v r where
  before k hk := by
    have hkp := List.mem_of_getLast? hk
    rw [get_setAt, if_neg (getLast?_ne hpu hkp), get_setAt, if_neg (getLast?_ne hpv hkp),
      get_setAt, if_pos hk]
  left k hk := by rw [get_setAt, if_pos hk]
  right k hk := by
    have hkv := List.mem_of_getLast? hk
    rw [get_setAt, if_neg (getLast?_ne (List.disjoint_symm huv) hkv), get_setAt, if_pos hk]
  other k hp hu hv := by
    rw [get_setAt, if_neg hu, get_setAt, if_neg hv, get_setAt, if_neg hp]

/-- The same with the last of `v` set at the end. -/
theorem exchanged_right {l : Links} {p u v r : List Nat} (hpu : p.Disjoint u) (hpv : p.Disjoint v)
    (huv : u.Disjoint v) :
    Exchanged l (((l.setAt u.getLast? r.head?).setAt p.getLast? v.head?).setAt v.getLast? u.head?)
      p u v r where
  before k hk := by
    rw [get_setAt, if_neg (getLast?_ne hpv (List.mem_of_getLast? hk)), get_setAt, if_pos hk]
  left k hk := by
    have hku := List.mem_of_getLast? hk
    rw [get_setAt, if_neg (getLast?_ne huv hku), get_setAt,
      if_neg (getLast?_ne (List.disjoint_symm hpu) hku), get_setAt, if_pos hk]
  right k hk := by rw [get_setAt, if_pos hk]
  other k hp hu hv := by
    rw [get_setAt, if_neg hv, get_setAt, if_neg hp, get_setAt, if_neg hu]

end Links

namespace Chain

/-- From the first segment on, the links lead through the list. -/
structure Leads (c : Chain) (l : List Nat) : Prop where
  nodup : l.Nodup
  first : some c.first = l.head?
  next : c.next.Lead l none

/-- The links lead through the list in both directions. -/
structure Orders (c : Chain) (l : List Nat) : Prop extends c.Leads l where
  last : some c.last = l.getLast?
  prev : c.prev.Lead l.reverse none

theorem Orders.single (a : Nat) : (single a).Orders [a] where
  nodup := by simp
  first := rfl
  next := ⟨rfl, trivial⟩
  last := rfl
  prev := ⟨rfl, trivial⟩

/-- A walk takes the path by which the links lead to its end, if it has as many steps. -/
theorem walk_eq_some_iff {c : Chain} : c.walk stop n link = some path ↔
    link = path.head?.or stop ∧ c.next.Lead path stop ∧ path.length ≤ n ∧
      ∀ k ∈ path, some k ≠ stop := by
  induction n generalizing link path with
  | zero =>
    rw [walk]
    cases path with
    | nil => simp [Links.Lead]
    | cons a path => simp
  | succ n ih =>
    rw [walk]
    cases path with
    | nil =>
      simp only [List.head?_nil, Option.none_or, Links.Lead, List.length_nil, Nat.zero_le,
        List.not_mem_nil, IsEmpty.forall_iff, implies_true, and_true]
      split
      · simpa
      · rename_i hne
        simp [hne, bind, Option.bind_eq_some_iff]
    | cons a path =>
      split
      · rename_i he
        subst he
        simp only [Option.some.injEq, List.nil_eq, reduceCtorEq, List.head?_cons, Option.some_or,
          List.mem_cons, forall_eq_or_imp, false_iff]
        rintro ⟨rfl, -, -, hne, -⟩
        exact hne rfl
      · rename_i hne
        cases link with
        | none => simp
        | some b =>
          simp only [bind, Option.bind_eq_some_iff, pure, Option.some.injEq, List.cons.injEq, ih,
            List.head?_cons, Option.some_or, Links.Lead, List.length_cons, Nat.add_le_add_iff_right,
            List.mem_cons, forall_eq_or_imp, exists_eq_left']
          constructor
          · rintro ⟨_, ⟨hget, hlead, hlen, hnot⟩, rfl, rfl⟩
            exact ⟨rfl, ⟨hget, hlead⟩, hlen, hne, hnot⟩
          · rintro ⟨rfl, ⟨hget, hlead⟩, hlen, -, hnot⟩
            exact ⟨_, ⟨hget, hlead, hlen, hnot⟩, rfl, rfl⟩

theorem Leads.walk {c : Chain} (h : c.Leads l) (hn : l.length ≤ n) :
    c.walk none n (some c.first) = some l :=
  walk_eq_some_iff.mpr ⟨by rw [h.first, Option.or_none], h.next, hn, by simp⟩

theorem Leads.next_get {c : Chain} (h : c.Leads (p ++ q)) (ha : p.getLast? = some a) :
    c.next.get a = q.head? := by
  obtain ⟨p, rfl⟩ := List.getLast?_eq_some_iff.mp ha
  have hp := (Links.lead_append.mp h.next).1
  simpa [Links.Lead] using (Links.lead_append.mp hp).2

theorem Orders.prev_get {c : Chain} (h : c.Orders (p ++ q)) (ha : q.head? = some a) :
    c.prev.get a = p.getLast? := by
  obtain ⟨q, rfl⟩ := List.head?_eq_some_iff.mp ha
  have hq := h.prev
  rw [List.reverse_append, List.reverse_cons, Links.lead_append, Links.lead_append] at hq
  simpa [Links.Lead] using hq.1.2

/-- A new segment behind the last of a beginning stands between it and the rest. -/
theorem Leads.insertAfter {c : Chain} (h : c.Leads (p ++ q)) (ha : p.getLast? = some a)
    (hb : b ∉ p ++ q) : (c.insertAfter a b).Leads (p ++ b :: q) := by
  have hget : c.next.get a = q.head? := h.next_get ha
  have hnext := Links.lead_append.mp h.next
  obtain ⟨hp, hq, hpq⟩ := List.nodup_append.mp h.nodup
  simp only [List.mem_append, not_or] at hb
  have hap : a ∈ p := List.mem_of_getLast? ha
  have haq : a ∉ q := fun hm => hpq a hap a hm rfl
  have hab : a ≠ b := fun he => hb.1 (he ▸ hap)
  have hforth : ((c.next.set b q.head?).set a (some b)).Lead p (some b) := by
    have := (hnext.1.setAt_other (a := some b) (v := q.head?) (by simpa using hb.1)).setAt_last
      hp (v := some b)
    rwa [ha] at this
  have hforth' : ((c.next.set b q.head?).set a (some b)).Lead q none :=
    (hnext.2.setAt_other (a := some b) (by simpa using hb.2)).setAt_other (a := some a)
      (by simpa using haq)
  refine ⟨?_, ?_, ?_⟩
  · refine List.nodup_append.mpr ⟨hp, List.nodup_cons.mpr ⟨hb.2, hq⟩, ?_⟩
    intro x hx y hy hxy
    rcases List.mem_cons.mp hy with rfl | hy
    · exact hb.1 (hxy ▸ hx)
    · exact hpq x hx y hy hxy
  · change some c.first = _
    rw [h.first, List.head?_append, List.head?_append]
    cases p with
    | nil => cases hap
    | cons x p => rfl
  · simp only [Chain.insertAfter, hget]
    exact Links.lead_append.mpr ⟨hforth, by simp [Links.get_set, hab], hforth'⟩

/-- So it does backward. -/
theorem Orders.insertAfter {c : Chain} (h : c.Orders (p ++ q)) (ha : p.getLast? = some a)
    (hb : b ∉ p ++ q) : (c.insertAfter a b).Orders (p ++ b :: q) := by
  have hforth := h.toLeads.insertAfter ha hb
  have hget : c.next.get a = q.head? := h.next_get ha
  have hprev := h.prev
  rw [List.reverse_append, Links.lead_append] at hprev
  obtain ⟨hp, hq, hpq⟩ := List.nodup_append.mp h.nodup
  simp only [List.mem_append, not_or] at hb
  have haq : a ∉ q := fun hm => hpq a (List.mem_of_getLast? ha) a hm rfl
  have hout : ∀ x, q.head? = some x → x ∉ p.reverse := fun x hx hm =>
    hpq x (List.mem_reverse.mp hm) x (List.mem_of_mem_head? hx) rfl
  have hback : ((c.prev.setAt q.head? (some b)).set b (some a)).Lead q.reverse (some b) := by
    have := (hprev.1.setAt_last (v := some b) (List.nodup_reverse.mpr hq)).setAt_other
      (a := some b) (v := some a) (by simpa using hb.2)
    rwa [List.getLast?_reverse] at this
  have hback' : ((c.prev.setAt q.head? (some b)).set b (some a)).Lead p.reverse none :=
    (hprev.2.setAt_other hout).setAt_other (a := some b) (by simpa using hb.1)
  refine ⟨hforth, ?_, ?_⟩
  · change some (if c.last = a then b else c.last) = _
    have hlast := h.last
    cases q using List.reverseRecOn with
    | nil =>
      rw [List.append_nil, ha, Option.some.injEq] at hlast
      simp [hlast]
    | append_singleton q x =>
      rw [← List.append_assoc, List.getLast?_concat, Option.some.injEq] at hlast
      have hx : x ≠ a := fun he => haq (by simp [he])
      rw [show p ++ b :: (q ++ [x]) = (p ++ b :: q) ++ [x] by simp, List.getLast?_concat]
      simp [hlast, hx]
  · simp only [Chain.insertAfter, hget]
    rw [List.reverse_append, List.reverse_cons, List.append_assoc]
    refine Links.lead_append.mpr ⟨hback, ?_⟩
    refine Links.lead_append.mpr ⟨⟨?_, trivial⟩, hback'⟩
    simp [Links.get_set, ha]

/-- What a move sets, in terms of the neighbours that it reads. -/
theorem move_eq {c : Chain} {first last : Nat} {next prev : Links}
    (hl : ¬ (target = none ∧ c.last = b)) (hleft : c.prev.get a = oldLeft) (hright : c.next.get b = oldRight)
    (hnew : target.elim (some c.last) c.prev.get = newLeft)
    (hnext : (c.next.setAt oldLeft oldRight).setAt newLeft (some a) = next)
    (hprev : (c.prev.setAt oldRight oldLeft).setAt target (some b) = prev)
    (hfirst : (if prev.get a = none then next.get b else some c.first) = some first)
    (hlast : (if next.get b = none then prev.get a else some c.last) = some last) :
    c.move a b target = some
      { first := if newLeft = none then a else first
        last := if target = none then b else last
        next := next.set b target
        prev := prev.set a newLeft } := by
  subst hleft hright hnew hnext hprev
  unfold move
  rw [if_neg hl]
  dsimp only
  rw [hfirst, Option.bind_eq_bind, Option.bind_some, hlast]
  rfl

/-- Links forward and backward by which two neighbouring runs change places. -/
theorem Orders.exchange {c c' : Chain} (h : c.Orders (p ++ (u ++ (v ++ r)))) (hu : u ≠ [])
    (hv : v ≠ []) (hfirst : some c'.first = (p ++ (v ++ (u ++ r))).head?)
    (hlast : some c'.last = (p ++ (v ++ (u ++ r))).getLast?)
    (hnext : Links.Exchanged c.next c'.next p u v r)
    (hprev : Links.Exchanged c.prev c'.prev r.reverse v.reverse u.reverse p.reverse) :
    c'.Orders (p ++ (v ++ (u ++ r))) where
  nodup := by
    have hperm : (p ++ (v ++ (u ++ r))).Perm (p ++ (u ++ (v ++ r))) := by
      refine .append_left p ?_
      rw [← List.append_assoc, ← List.append_assoc]
      exact .append_right r List.perm_append_comm
    exact hperm.nodup_iff.mpr h.nodup
  first := hfirst
  next := h.next.exchange h.nodup hu hv hnext
  last := hlast
  prev := by
    have hreverse := h.prev
    have hnodup := List.nodup_reverse.mpr h.nodup
    simp only [List.reverse_append, List.append_assoc] at hreverse hnodup ⊢
    exact hreverse.exchange hnodup (by simpa using hv) (by simpa using hu) hprev

/-- A run that is moved back: what stood between it and the target comes first. -/
theorem Orders.move_back {c : Chain} (h : c.Orders (p ++ (run ++ (q ++ r))))
    (ha : run.head? = some a) (hb : run.getLast? = some b) (hx : q.head? = some x)
    (hy : q.getLast? = some y) :
    ∃ c', c.move a b r.head? = some c' ∧ c'.Orders (p ++ (q ++ (run ++ r))) := by
  have hnodup := h.nodup
  simp only [List.nodup_append', List.disjoint_append_right] at hnodup
  obtain ⟨-, ⟨-, ⟨-, -, hqr⟩, hrunq, hrunr⟩, hprun, hpq, -⟩ := hnodup
  have hleft : c.prev.get a = p.getLast? := h.prev_get (by simp [ha])
  have hright : c.next.get b = q.head? := by
    have h' := h.toLeads
    rw [← List.append_assoc] at h'
    simpa [hx] using h'.next_get (a := b) (by simp [hb])
  have hnew : r.head?.elim (some c.last) c.prev.get = q.getLast? := by
    cases r with
    | nil => simp [h.last, hy]
    | cons z r =>
      have h' := h
      rw [← List.append_assoc, ← List.append_assoc] at h'
      simpa [hy] using h'.prev_get (a := z) (by simp)
  have hl : ¬ (r.head? = none ∧ c.last = b) := by
    rintro ⟨hn, hlast⟩
    rw [hn, Option.elim_none, hlast] at hnew
    exact hrunq (List.mem_of_getLast? hb) (List.mem_of_getLast? hnew.symm)
  have har := List.mem_of_mem_head? ha
  have hbr := List.mem_of_getLast? hb
  have hpa : ((c.prev.setAt q.head? p.getLast?).setAt r.head? (some b)).get a = p.getLast? := by
    rw [← hb, Links.get_setAt_head_of_notMem (hrunr har),
      Links.get_setAt_head_of_notMem (hrunq har), hleft]
  have hnb : ((c.next.setAt p.getLast? q.head?).setAt q.getLast? (some a)).get b = q.head? := by
    rw [← ha, Links.get_setAt_getLast_of_notMem (hrunq hbr),
      Links.get_setAt_getLast_of_notMem fun hm => hprun hm hbr, hright]
  have hfirst : (if p.getLast? = none then q.head? else some c.first) =
      (p ++ (q ++ (run ++ r))).head? := by
    rw [h.first]
    cases p <;> simp [hx]
  obtain ⟨first, hhead⟩ : ∃ first, (p ++ (q ++ (run ++ r))).head? = some first :=
    Option.ne_none_iff_exists'.mp (by simp [hx])
  refine ⟨_, move_eq hl hleft hright hnew rfl rfl (by rw [hpa, hnb, hfirst, hhead])
    (by rw [hnb, hx, if_neg (by simp)]), ?_⟩
  simp only [Links.set_eq_setAt, ← ha, ← hb]
  refine h.exchange (List.ne_nil_of_mem har) (List.ne_nil_of_mem (List.mem_of_mem_head? hx)) ?_ ?_
    (Links.exchanged_left hprun hpq hrunq) ?_
  · simp [hy, hhead]
  · have hlast := h.last
    cases r <;> simp_all [List.getLast?_cons]
  · have := Links.exchanged_right (l := c.prev) (p := r.reverse) (u := q.reverse)
      (v := run.reverse) (r := p.reverse) (by simpa using List.disjoint_symm hqr)
      (by simpa using List.disjoint_symm hrunr) (by simpa using List.disjoint_symm hrunq)
    simpa only [List.getLast?_reverse, List.head?_reverse] using this

/-- A run that is moved forth, before what stood between the target and it. -/
theorem Orders.move_forth {c : Chain} (h : c.Orders (p ++ (q ++ (run ++ r))))
    (ha : run.head? = some a) (hb : run.getLast? = some b) (hx : q.head? = some x)
    (hy : q.getLast? = some y) :
    ∃ c', c.move a b q.head? = some c' ∧ c'.Orders (p ++ (run ++ (q ++ r))) := by
  have hnodup := h.nodup
  simp only [List.nodup_append', List.disjoint_append_right] at hnodup
  obtain ⟨-, ⟨-, ⟨-, -, hrunr⟩, hqrun, hqr⟩, hpq, hprun, -⟩ := hnodup
  have har := List.mem_of_mem_head? ha
  have hbr := List.mem_of_getLast? hb
  have hleft : c.prev.get a = q.getLast? := by
    have h' := h
    rw [← List.append_assoc] at h'
    simpa [hy] using h'.prev_get (a := a) (by simp [ha])
  have hright : c.next.get b = r.head? := by
    have h' := h.toLeads
    rw [← List.append_assoc, ← List.append_assoc] at h'
    exact h'.next_get (by simp [hb])
  have hnew : q.head?.elim (some c.last) c.prev.get = p.getLast? := by
    rw [hx]
    exact h.prev_get (by simp [hx])
  have hpa : ((c.prev.setAt r.head? q.getLast?).setAt q.head? (some b)).get a = q.getLast? := by
    rw [Links.get_setAt_head_of_notMem fun hm => hqrun hm har,
      Links.get_setAt_head_of_notMem (hrunr har), hleft]
  have hnb : ((c.next.setAt q.getLast? r.head?).setAt p.getLast? (some a)).get b = r.head? := by
    rw [Links.get_setAt_getLast_of_notMem fun hm => hprun hm hbr,
      Links.get_setAt_getLast_of_notMem fun hm => hqrun hm hbr, hright]
  have hlast : (if r.head? = none then q.getLast? else some c.last) =
      (p ++ (run ++ (q ++ r))).getLast? := by
    rw [h.last]
    cases r <;> simp [hy, List.getLast?_cons]
  obtain ⟨last, hend⟩ : ∃ last, (p ++ (run ++ (q ++ r))).getLast? = some last :=
    Option.ne_none_iff_exists'.mp (by simp [hy])
  refine ⟨_, move_eq (by simp [hx]) hleft hright hnew rfl rfl (by rw [hpa, hy, if_neg (by simp)])
    (by rw [hpa, hnb, hlast, hend]), ?_⟩
  simp only [Links.set_eq_setAt, ← ha, ← hb]
  refine h.exchange (List.ne_nil_of_mem (List.mem_of_mem_head? hx)) (List.ne_nil_of_mem har) ?_ ?_
    (Links.exchanged_right hpq hprun hqrun) ?_
  · have hfirst := h.first
    cases p <;> simp_all
  · simp [hx, hend]
  · have := Links.exchanged_left (l := c.prev) (p := r.reverse) (u := run.reverse)
      (v := q.reverse) (r := p.reverse) (by simpa using List.disjoint_symm hrunr)
      (by simpa using List.disjoint_symm hqr) (by simpa using List.disjoint_symm hqrun)
    simpa only [List.getLast?_reverse, List.head?_reverse] using this

/-- The links set by a move of a run to where it already stands leave it out, unless nothing
stands before it. -/
theorem Orders.move_in_place {c : Chain} (h : c.Orders (p ++ (run ++ r)))
    (ha : run.head? = some a) (hb : run.getLast? = some b) (hx : r.head? = some x) :
    ∃ c', c.move a b r.head? = some c' ∧ c'.Leads (if p = [] then run ++ r else p ++ r) := by
  have hnodup := h.nodup
  simp only [List.nodup_append', List.disjoint_append_right] at hnodup
  obtain ⟨hp, ⟨hrun, hr, hrunr⟩, hprun, hpr⟩ := hnodup
  have har := List.mem_of_mem_head? ha
  have hnext := h.next
  simp only [Links.lead_append] at hnext
  have hleft : c.prev.get a = p.getLast? := h.prev_get (by simp [ha])
  have h' := h
  rw [← List.append_assoc] at h'
  have hright : c.next.get b = r.head? := h'.toLeads.next_get (by simp [hb])
  have hnew : r.head?.elim (some c.last) c.prev.get = run.getLast? := by
    rw [hx]
    simpa [hb] using h'.prev_get hx
  have hpa : ((c.prev.setAt r.head? p.getLast?).setAt r.head? (some b)).get a = p.getLast? := by
    rw [Links.get_setAt_head_of_notMem (hrunr har), Links.get_setAt_head_of_notMem (hrunr har),
      hleft]
  have hnb : ((c.next.setAt p.getLast? r.head?).setAt run.getLast? (some a)).get b = some a := by
    rw [Links.get_setAt, if_pos hb]
  have hfirst : (if p.getLast? = none then some a else some c.first) =
      some (if p = [] then a else c.first) := by
    cases p using List.reverseRecOn <;> simp
  refine ⟨_, move_eq (by simp [hx]) hleft hright hnew rfl rfl (by rw [hpa, hnb, hfirst])
    (by rw [hnb, if_neg (by simp)]), ?_⟩
  simp only [Links.set_eq_setAt, ← ha, ← hb]
  have hrest : (((c.next.setAt p.getLast? r.head?).setAt run.getLast? run.head?).setAt run.getLast?
      r.head?).Lead r none :=
    ((hnext.2.2.setAt_getLast_other hpr).setAt_getLast_other hrunr).setAt_getLast_other hrunr
  cases p with
  | nil =>
    refine ⟨h.nodup, ?_, ?_⟩
    · simp [hb, ha]
    · refine Links.lead_append.mpr ⟨?_, hrest⟩
      have hnil : ([] : List Nat).Disjoint run := by simp
      simpa using ((hnext.2.1.setAt_getLast_other hnil).setAt_last hrun).setAt_last hrun
  | cons z p =>
    refine ⟨List.nodup_append'.mpr ⟨hp, hr, hpr⟩, ?_, ?_⟩
    · simpa [hb] using h.first
    · refine Links.lead_append.mpr ⟨?_, hrest⟩
      simpa [hx] using ((hnext.1.setAt_last hp).setAt_getLast_other
        (List.disjoint_symm hprun)).setAt_getLast_other (List.disjoint_symm hprun)

/-- At the end, a run already there stays. -/
theorem move_last {c : Chain} (h : c.last = b) : c.move a b none = some c := by
  simp [move, h]

end Chain
end GadgetBuild.Overlay
