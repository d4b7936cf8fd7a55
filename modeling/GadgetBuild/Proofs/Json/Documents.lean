import GadgetBuild.Json.Doc
import GadgetBuild.Proofs.Json.Tokens

/-!
Documents of texts. The text of a value, with whatever white space and however its literals are
spelled, is read as the document of that value.
-/

namespace GadgetBuild.Json

mutual

/-- The tokens of a value. -/
def Value.tokens : Value → List Token
  | .null => [.null]
  | .bool b => [.bool b]
  | .number n => [.number n]
  | .text t => [.text t]
  | .list [] => [.openList, .closeList]
  | .list (v :: vs) => .openList :: (v.tokens ++ itemTokens vs)
  | .object [] => [.openObject, .closeObject]
  | .object ((k, v) :: fs) => .openObject :: .text k :: .colon :: (v.tokens ++ fieldTokens fs)

/-- The items behind another one, and the end of the list. -/
def itemTokens : List Value → List Token
  | [] => [.closeList]
  | v :: vs => .comma :: (v.tokens ++ itemTokens vs)

/-- The fields behind another one, and the end of the object. -/
def fieldTokens : List (Text × Value) → List Token
  | [] => [.closeObject]
  | (k, v) :: fs => .comma :: .text k :: .colon :: (v.tokens ++ fieldTokens fs)

end

theorem itemTokens_delimit (vs : List Value) : ∀ t ∈ (itemTokens vs).head?, t.delimits = true := by
  cases vs <;> simp [itemTokens, Token.delimits]

theorem fieldTokens_delimit (fs : List (Text × Value)) :
    ∀ t ∈ (fieldTokens fs).head?, t.delimits = true := by
  cases fs <;> simp [fieldTokens, Token.delimits]

theorem Loose.cons (h : t.isNumber = false) (hts : Loose ts) : Loose (t :: ts) :=
  List.IsChain.cons hts fun _ _ hnumber => absurd (h ▸ hnumber) Bool.false_ne_true

mutual

theorem loose_tokens : ∀ v : Value, Loose v.tokens
  | .null | .bool _ | .number _ | .text _ => .singleton _
  | .list [] => .cons rfl (.singleton _)
  | .list (v :: vs) =>
    .cons rfl ((loose_tokens v).append (loose_itemTokens vs) (.inl (itemTokens_delimit vs)))
  | .object [] => .cons rfl (.singleton _)
  | .object ((_, v) :: fs) =>
    .cons rfl (.cons rfl (.cons rfl
      ((loose_tokens v).append (loose_fieldTokens fs) (.inl (fieldTokens_delimit fs)))))

theorem loose_itemTokens : ∀ vs : List Value, Loose (itemTokens vs)
  | [] => .singleton _
  | v :: vs =>
    .cons rfl ((loose_tokens v).append (loose_itemTokens vs) (.inl (itemTokens_delimit vs)))

theorem loose_fieldTokens : ∀ fs : List (Text × Value), Loose (fieldTokens fs)
  | [] => .singleton _
  | (_, v) :: fs =>
    .cons rfl (.cons rfl (.cons rfl
      ((loose_tokens v).append (loose_fieldTokens fs) (.inl (fieldTokens_delimit fs)))))

end

/-- Takes up tokens in turn. -/
def Progress.run (p : Progress) (ts : List Token) : Progress :=
  ts.foldl Progress.step p

/-- A value may be the first item of a list. -/
theorem run_firstItem (v : Value) (frames : List Frame) (ts : List Token) :
    (Progress.reading .firstItem frames).run (v.tokens ++ ts) =
      (Progress.reading .value (.list [] :: frames)).run (v.tokens ++ ts) := by
  cases v with
  | list items => cases items <;> rfl
  | object fields => cases fields <;> rfl
  | _ => rfl

mutual

/-- Where a value is awaited its tokens give its document to what stands around it. -/
theorem run_tokens (v : Value) (frames : List Frame) (ts : List Token) :
    (Progress.reading .value frames).run (v.tokens ++ ts) =
      (settle (Doc.ofValue v) frames).run ts := by
  match v with
  | .null | .bool _ | .number _ | .text _ => rfl
  | .list [] => rfl
  | .list (v :: vs) =>
    calc (Progress.reading .value frames).run ((Value.list (v :: vs)).tokens ++ ts)
      _ = (Progress.reading .firstItem frames).run (v.tokens ++ (itemTokens vs ++ ts)) := by
        rw [← List.append_assoc]
        rfl
      _ = (Progress.reading .behindEntry (.list [Doc.ofValue v] :: frames)).run
          (itemTokens vs ++ ts) := by
        rw [run_firstItem, run_tokens v]
        rfl
      _ = (settle (Doc.ofValue (.list (v :: vs))) frames).run ts := by
        rw [run_itemTokens vs]
        rfl
  | .object [] => rfl
  | .object ((k, v) :: fs) =>
    calc (Progress.reading .value frames).run ((Value.object ((k, v) :: fs)).tokens ++ ts)
      _ = (Progress.reading .value (.object [] k :: frames)).run
          (v.tokens ++ (fieldTokens fs ++ ts)) := by
        rw [← List.append_assoc]
        rfl
      _ = (Progress.reading .behindEntry (.object [(k, Doc.ofValue v)] k :: frames)).run
          (fieldTokens fs ++ ts) := by
        rw [run_tokens v]
        rfl
      _ = (settle (Doc.ofValue (.object ((k, v) :: fs))) frames).run ts := by
        rw [run_fieldTokens fs]
        rfl

theorem run_itemTokens (vs : List Value) (items : List Doc) (frames : List Frame)
    (ts : List Token) :
    (Progress.reading .behindEntry (.list items :: frames)).run (itemTokens vs ++ ts) =
      (settle (.list (items.reverse ++ itemDocs vs) true) frames).run ts := by
  match vs with
  | [] => rw [itemDocs, List.append_nil]; rfl
  | v :: vs =>
    calc (Progress.reading .behindEntry (.list items :: frames)).run (itemTokens (v :: vs) ++ ts)
      _ = (Progress.reading .value (.list items :: frames)).run
          (v.tokens ++ (itemTokens vs ++ ts)) := by
        rw [← List.append_assoc]
        rfl
      _ = (Progress.reading .behindEntry (.list (Doc.ofValue v :: items) :: frames)).run
          (itemTokens vs ++ ts) := by
        rw [run_tokens v]
        rfl
      _ = (settle (.list (items.reverse ++ itemDocs (v :: vs)) true) frames).run ts := by
        rw [run_itemTokens vs, List.reverse_cons, List.append_assoc]
        rfl

theorem run_fieldTokens (fs : List (Text × Value)) (fields : List (Text × Doc)) (key : Text)
    (frames : List Frame) (ts : List Token) :
    (Progress.reading .behindEntry (.object fields key :: frames)).run (fieldTokens fs ++ ts) =
      (settle (.object (fields.reverse ++ fieldDocs fs) true) frames).run ts := by
  match fs with
  | [] => rw [fieldDocs, List.append_nil]; rfl
  | (k, v) :: fs =>
    calc
      (Progress.reading .behindEntry (.object fields key :: frames)).run
          (fieldTokens ((k, v) :: fs) ++ ts)
      _ = (Progress.reading .value (.object fields k :: frames)).run
          (v.tokens ++ (fieldTokens fs ++ ts)) := by
        rw [← List.append_assoc]
        rfl
      _ = (Progress.reading .behindEntry (.object ((k, Doc.ofValue v) :: fields) k :: frames)).run
          (fieldTokens fs ++ ts) := by
        rw [run_tokens v]
        rfl
      _ = (settle (.object (fields.reverse ++ fieldDocs ((k, v) :: fs)) true) frames).run ts := by
        rw [run_fieldTokens fs, List.reverse_cons, List.append_assoc]
        rfl

end

/-- The text of a value is read as its document. -/
theorem read_spelled (h : Spelled v.tokens t) : read t = ⟨Doc.ofValue v, true⟩ := by
  have htokens : tokens (t ++ []) = v.tokens ++ tokens [] :=
    h.tokens_append (loose_tokens v) fun _ _ _ => nofun
  have hrun := run_tokens v [] []
  rw [List.append_nil] at htokens hrun
  rw [read, htokens, tokens, tokensFrom, List.append_nil, Reading.ofTokens]
  exact congrArg Progress.result hrun

theorem Spelled.append (hs : Spelled ss s) (ht : Spelled ts t) : Spelled (ss ++ ts) (s ++ t) := by
  induction hs with
  | nil hw =>
    cases ht with
    | nil hw' => exact .nil fun c hc => (List.mem_append.mp hc).elim (hw c) (hw' c)
    | cons hw' hs' ht' =>
      rw [← List.append_assoc]
      exact .cons (fun c hc => (List.mem_append.mp hc).elim (hw c) (hw' c)) hs' ht'
  | cons hw hs _ ih =>
    rw [List.append_assoc, List.append_assoc]
    exact .cons hw hs ih

theorem Spells.spelled (h : Spells token s) : Spelled [token] s := by
  have hspelled := Spelled.cons (w := []) nofun h (.nil (w := []) nofun)
  rwa [List.nil_append, List.append_nil] at hspelled

theorem Spells.quote (t : Text) : Spells (.text t) (Json.quote t) :=
  .text (spellsText_quoted t)

/-- Every number among the tokens is an integer of 64 bits. -/
def Fits (ts : List Token) : Prop :=
  ∀ n, .number n ∈ ts → ∃ i : Int, n = .integer i ∧ -2 ^ 63 ≤ i ∧ i < 2 ^ 64

theorem fits_cons : Fits (t :: ts) ↔ Fits [t] ∧ Fits ts := by
  simp only [Fits, List.mem_cons, List.not_mem_nil, or_false, or_imp, forall_and]

theorem fits_append : Fits (ss ++ ts) ↔ Fits ss ∧ Fits ts := by
  simp only [Fits, List.mem_append, or_imp, forall_and]

theorem fits_list (h : ∀ v ∈ vs, Fits v.tokens) : Fits (Value.list vs).tokens := by
  have hitems : Fits (itemTokens vs) := by
    induction vs with
    | nil => nofun
    | cons v vs ih =>
      obtain ⟨hv, hvs⟩ := List.forall_mem_cons.mp h
      exact fits_cons.mpr ⟨nofun, fits_append.mpr ⟨hv, ih hvs⟩⟩
  cases vs with
  | nil => nofun
  | cons v vs => exact fits_cons.mpr ⟨nofun, (fits_cons.mp hitems).2⟩

theorem fits_object (h : ∀ f ∈ fs, Fits f.2.tokens) : Fits (Value.object fs).tokens := by
  have hfields : Fits (fieldTokens fs) := by
    induction fs with
    | nil => nofun
    | cons f fs ih =>
      obtain ⟨hf, hfs⟩ := List.forall_mem_cons.mp h
      exact fits_cons.mpr ⟨nofun, fits_cons.mpr ⟨nofun, fits_cons.mpr ⟨nofun,
        fits_append.mpr ⟨hf, ih hfs⟩⟩⟩⟩
  cases fs with
  | nil => nofun
  | cons f fs => exact fits_cons.mpr ⟨nofun, (fits_cons.mp hfields).2⟩

end GadgetBuild.Json
