import GadgetBuild.Proofs.Json.Documents

/-!
Texts that begin with an object. Once a key was read, the fields up to it are those of the document
whatever follows, even if that makes no sense: what is inside of a container does not touch what
stands around it, and what stands around it only grows.
-/

namespace GadgetBuild.Json

/-- The same progress inside of other containers. -/
def Progress.within (outer : List Frame) : Progress → Progress
  | .reading awaited frames => .reading awaited (frames ++ outer)
  | .finished d => settle d outer
  | .stopped d => .stopped (enclose outer d)

/-- Only behind an entry of a container is anything awaited behind an entry. -/
def Progress.Sound : Progress → Prop
  | .reading .behindEntry [] => False
  | _ => True

theorem sound_settle (d : Doc) (frames : List Frame) : (settle d frames).Sound := by
  rcases frames with _ | ⟨_ | _, frames⟩ <;> trivial

theorem settle_append (d : Doc) (frames outer : List Frame) :
    settle d (frames ++ outer) = (settle d frames).within outer := by
  rcases frames with _ | ⟨_ | _, frames⟩ <;> rfl

theorem enclose_append (frames outer : List Frame) (d : Doc) :
    enclose (frames ++ outer) d = enclose outer (enclose frames d) := by
  induction frames generalizing d with
  | nil => rfl
  | cons frame frames ih => cases frame <;> exact ih _

theorem readValue_append (frames outer : List Frame) (t : Token) :
    readValue (frames ++ outer) t = (readValue frames t).map (Progress.within outer) := by
  cases t <;> simp [readValue, settle_append, Progress.within]

theorem accept?_firstItem (h : t ≠ .closeList) (frames : List Frame) :
    accept? .firstItem frames t = readValue (.list [] :: frames) t := by
  cases t with
  | closeList => exact absurd rfl h
  | _ => rfl

theorem accept?_append (h : awaited = .behindEntry → frames ≠ []) (outer : List Frame) (t : Token) :
    accept? awaited (frames ++ outer) t = (accept? awaited frames t).map (Progress.within outer) := by
  cases awaited with
  | value => exact readValue_append frames outer t
  | firstItem =>
    by_cases hclose : t = .closeList
    · subst hclose
      exact congrArg some (settle_append _ frames outer)
    · rw [accept?_firstItem hclose, accept?_firstItem hclose]
      exact readValue_append (.list [] :: frames) outer t
  | firstKey fields | key fields | colon =>
    cases t <;> simp [accept?, settle_append, Progress.within]
  | behindEntry =>
    rcases frames with _ | ⟨_ | _, frames⟩
    · exact absurd rfl (h rfl)
    all_goals cases t <;> simp [accept?, settle_append, Progress.within]

theorem cutShort_append (h : awaited = .behindEntry → frames ≠ []) (outer : List Frame) :
    cutShort awaited (frames ++ outer) = enclose outer (cutShort awaited frames) := by
  cases awaited with
  | behindEntry =>
    rcases frames with _ | ⟨_ | _, frames⟩
    · exact absurd rfl (h rfl)
    all_goals exact enclose_append frames outer _
  | _ => exact enclose_append frames outer _

theorem step_append (h : awaited = .behindEntry → frames ≠ []) (outer : List Frame) (t : Token) :
    (Progress.reading awaited (frames ++ outer)).step t =
      ((Progress.reading awaited frames).step t).within outer := by
  rw [Progress.step, Progress.step, accept?_append h, cutShort_append h]
  cases accept? awaited frames t <;> rfl

theorem sound_readValue (h : p ∈ readValue frames t) : p.Sound := by
  cases t <;> simp only [readValue, Option.mem_def, Option.some.injEq, reduceCtorEq] at h
  all_goals
    subst h
    first | exact sound_settle _ _ | trivial

theorem sound_accept? (h : p ∈ accept? awaited frames t) : p.Sound := by
  unfold accept? at h
  split at h
  all_goals first
    | exact sound_readValue h
    | obtain rfl := Option.some.inj h
      first | exact sound_settle _ _ | trivial
    | cases h

theorem sound_step (p : Progress) (t : Token) : (p.step t).Sound := by
  cases p with
  | reading awaited frames =>
    rw [Progress.step]
    cases haccept : accept? awaited frames t with
    | none => trivial
    | some next => exact sound_accept? haccept
  | _ => trivial

/-- The outermost container is an object that begins with these fields. -/
def Progress.Begins (fields : List (Text × Doc)) : Progress → Prop
  | .reading awaited frames =>
    (∃ inner fs key, frames = inner ++ [.object fs key] ∧ fields <+: fs.reverse) ∨
      ∃ fs, awaited = .key fs ∧ frames = [] ∧ fields <+: fs.reverse
  | .finished d | .stopped d => ∃ fs closed, d = .object fs closed ∧ fields <+: fs

/-- The same, but that of the last field only the key was read for sure. -/
def Progress.BeginsKey (fields : List (Text × Doc)) (key : Text) (p : Progress) : Prop :=
  (∃ awaited inner, p = .reading awaited (inner ++ [.object fields.reverse key]) ∧
    (awaited = .behindEntry → inner ≠ [])) ∨ ∃ d, p.Begins (fields ++ [(key, d)])

/-- A step inside of an object goes on inside, or gives the object its next field. -/
theorem within_object_cases (p : Progress) (hp : p.Sound) (fs : List (Text × Doc)) (key : Text) :
    (∃ awaited inner, p.within [.object fs key] = .reading awaited (inner ++ [.object fs key]) ∧
        (awaited = .behindEntry → inner ≠ [])) ∨
      ∃ d, (p.within [.object fs key]).Begins (fs.reverse ++ [(key, d)]) := by
  cases p with
  | reading awaited frames =>
    refine .inl ⟨awaited, frames, rfl, ?_⟩
    rintro rfl rfl
    exact hp
  | finished d =>
    exact .inr ⟨d, .inl ⟨[], (key, d) :: fs, key, rfl, List.reverse_cons ▸ List.prefix_rfl⟩⟩
  | stopped d => exact .inr ⟨d, _, false, rfl, List.reverse_cons ▸ List.prefix_rfl⟩

theorem Progress.Begins.mono {p : Progress} (h : p.Begins more) (hfields : fields <+: more) :
    p.Begins fields := by
  cases p with
  | reading awaited frames =>
    rcases h with ⟨inner, fs, key, hframes, hmore⟩ | ⟨fs, hawaited, hframes, hmore⟩
    · exact .inl ⟨inner, fs, key, hframes, hfields.trans hmore⟩
    · exact .inr ⟨fs, hawaited, hframes, hfields.trans hmore⟩
  | finished d | stopped d =>
    obtain ⟨fs, closed, hd, hmore⟩ := h
    exact ⟨fs, closed, hd, hfields.trans hmore⟩

theorem begins_step_inside (h : awaited = .behindEntry → frames ≠ []) (fs : List (Text × Doc))
    (key : Text) (t : Token) :
    (∃ awaited' frames', (Progress.reading awaited (frames ++ [.object fs key])).step t =
        .reading awaited' (frames' ++ [.object fs key]) ∧ (awaited' = .behindEntry → frames' ≠ [])) ∨
      ∃ d, ((Progress.reading awaited (frames ++ [.object fs key])).step t).Begins
        (fs.reverse ++ [(key, d)]) := by
  rw [step_append h]
  exact within_object_cases _ (sound_step _ t) fs key

theorem Progress.Begins.step {p : Progress} (h : p.Begins fields) (t : Token) :
    (p.step t).Begins fields := by
  cases p with
  | reading awaited frames =>
    rcases h with ⟨inner, fs, key, rfl, hfields⟩ | ⟨fs, rfl, rfl, hfields⟩
    · by_cases hentry : awaited = .behindEntry ∧ inner = []
      · obtain ⟨rfl, rfl⟩ := hentry
        cases t with
        | comma => exact .inr ⟨fs, rfl, rfl, hfields⟩
        | _ => exact ⟨fs.reverse, _, rfl, hfields⟩
      · rcases begins_step_inside (fun ha hi => hentry ⟨ha, hi⟩) fs key t with
          ⟨awaited', inner', hstep, -⟩ | ⟨d, hbegins⟩
        · rw [hstep]
          exact .inl ⟨inner', fs, key, rfl, hfields⟩
        · exact hbegins.mono (hfields.trans (List.prefix_append _ _))
    · cases t with
      | text k => exact .inl ⟨[], fs, k, rfl, hfields⟩
      | _ => exact ⟨fs.reverse, false, rfl, hfields⟩
  | finished d | stopped d => exact h

theorem Progress.BeginsKey.step {p : Progress} (h : p.BeginsKey fields key) (t : Token) :
    (p.step t).BeginsKey fields key := by
  rcases h with ⟨awaited, inner, rfl, hinner⟩ | ⟨d, h⟩
  · rcases begins_step_inside hinner fields.reverse key t with hinside | ⟨d, h⟩
    · exact .inl hinside
    · rw [List.reverse_reverse] at h
      exact .inr ⟨d, h⟩
  · exact .inr ⟨d, h.step t⟩

theorem Progress.BeginsKey.run {p : Progress} (h : p.BeginsKey fields key) (ts : List Token) :
    (p.run ts).BeginsKey fields key := by
  induction ts generalizing p with
  | nil => exact h
  | cons t ts ih => exact ih (h.step t)

/-- A token that makes no sense ends a text like its own end does. -/
theorem step_bad (p : Progress) : p.step .bad = .stopped p.result.doc := by
  cases p with
  | reading awaited frames =>
    cases awaited with
    | behindEntry => rcases frames with _ | ⟨_ | _, frames⟩ <;> rfl
    | _ => rfl
  | _ => rfl

/-- The document of a text that begins with an object holds its fields, whatever follows the key of
the last. -/
theorem Progress.BeginsKey.doc {p : Progress} (h : p.BeginsKey fields key) :
    ∃ d more closed, p.result.doc = .object (fields ++ (key, d) :: more) closed := by
  have hend := h.step .bad
  rw [step_bad] at hend
  rcases hend with ⟨awaited, inner, hreading, -⟩ | ⟨d, fs, closed, hdoc, more, rfl⟩
  · cases hreading
  · exact ⟨d, more, closed, by rw [hdoc, List.append_assoc]; rfl⟩

/-- The tokens of fields, each with what parts it from the next, up to the key of another one. -/
def keyTokens : List (Text × Value) → Text → List Token
  | [], key => [.text key]
  | (k, v) :: fs, key => .text k :: .colon :: (v.tokens ++ .comma :: keyTokens fs key)

theorem loose_keyTokens (fs : List (Text × Value)) (key : Text) : Loose (keyTokens fs key) := by
  induction fs with
  | nil => exact .singleton _
  | cons f fs ih =>
    have hcomma : Loose (.comma :: keyTokens fs key) := .cons rfl ih
    exact .cons rfl (.cons rfl ((loose_tokens f.2).append hcomma (.inl fun t ht => by
      cases ht
      rfl)))

theorem getLast?_keyTokens (fs : List (Text × Value)) (key : Text) :
    (keyTokens fs key).getLast? = some (.text key) := by
  induction fs with
  | nil => rfl
  | cons f fs ih => simp [keyTokens, List.getLast?_cons, List.getLast?_append, ih]

theorem run_keyTokens (fs : List (Text × Value)) (key : Text) (fields : List (Text × Doc))
    (ts : List Token) :
    (Progress.reading (.key fields) []).run (keyTokens fs key ++ ts) =
      (Progress.reading .colon [.object ((fieldDocs fs).reverse ++ fields) key]).run ts := by
  induction fs generalizing fields with
  | nil => rfl
  | cons f fs ih =>
    obtain ⟨k, v⟩ := f
    calc
      (Progress.reading (.key fields) []).run (keyTokens ((k, v) :: fs) key ++ ts)
      _ = (Progress.reading .value [.object fields k]).run
          (v.tokens ++ .comma :: (keyTokens fs key ++ ts)) := by
        rw [← List.cons_append, ← List.append_assoc]
        rfl
      _ = (Progress.reading (.key ((k, Doc.ofValue v) :: fields)) []).run
          (keyTokens fs key ++ ts) := by
        rw [run_tokens v]
        rfl
      _ = (Progress.reading .colon
          [.object ((fieldDocs ((k, v) :: fs)).reverse ++ fields) key]).run ts := by
        rw [ih, fieldDocs, List.reverse_cons, List.append_assoc]
        rfl

theorem run_firstKey (fs : List (Text × Value)) (key : Text) (ts : List Token) :
    (Progress.reading (.firstKey []) []).run (keyTokens fs key ++ ts) =
      (Progress.reading (.key []) []).run (keyTokens fs key ++ ts) := by
  cases fs <;> rfl

/-- Whatever follows a key in an object, its fields before the key are read, and then the key. -/
theorem read_front (h : Spelled (.openObject :: keyTokens fs key) t) (rest : Text) :
    ∃ d more closed, (read (t ++ rest)).doc = .object (fieldDocs fs ++ (key, d) :: more) closed := by
  have htokens : tokens (t ++ rest) = .openObject :: keyTokens fs key ++ tokens rest := by
    refine h.tokens_append (.cons rfl (loose_keyTokens fs key)) fun last hlast hnumber => ?_
    rw [List.getLast?_cons, getLast?_keyTokens] at hlast
    cases hlast
    cases hnumber
  have hrun := run_keyTokens fs key [] (tokens rest)
  rw [List.append_nil, ← run_firstKey] at hrun
  have hbegins : ((Progress.reading .colon [.object (fieldDocs fs).reverse key]).run
      (tokens rest)).BeginsKey (fieldDocs fs) key :=
    Progress.BeginsKey.run (.inl ⟨.colon, [], rfl, nofun⟩) _
  rw [← hrun] at hbegins
  rw [read, htokens]
  exact hbegins.doc

end GadgetBuild.Json
