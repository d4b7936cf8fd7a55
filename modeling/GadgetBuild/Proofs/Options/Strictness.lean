import GadgetBuild.Options.Reader
import GadgetBuild.Proofs.Json.Beginnings
import GadgetBuild.Proofs.Json.Layout
import GadgetBuild.Settings

/-!
Options are read from every text that spells them, as an object or as a list, and from no object
with a field too many, twice or too few.
-/

namespace GadgetBuild.Options

open Json (Doc Spelled Value)

/-- A value that may be absent is null then. -/
def optional {α : Type} (write : α → Value) : Option α → Value
  | none => .null
  | some a => write a

def texts (ts : List Text) : Value :=
  .list (ts.map .text)

def count (n : Nat) : Value :=
  .number (.integer n)

/-- The value of a field. -/
def value (o : Options) : Field → Value
  | .name => .text o.name
  | .entry => .text o.entry
  | .template => optional .text o.template
  | .banner => optional .text o.banner
  | .footer => optional .text o.footer
  | .modules => optional texts o.modules
  | .ignoreBuildOptions => optional .bool o.ignoreBuildOptions
  | .debugCookieAge => optional count o.debugCookieAge
  | .esmChunks => optional .bool o.esmChunks
  | .esmUnhoistChunks => optional texts o.esmUnhoistChunks
  | .baseUrl => optional .text o.baseUrl

/-- Fields with their keys, in the order in which they are named. -/
def members (o : Options) (fields : List Field) : List (Text × Value) :=
  fields.map fun f => (f.key, o.value f)

theorem Field.mem_all (f : Field) : f ∈ all := by
  cases f <;> decide

theorem Field.ofKey?_key (f : Field) : ofKey? f.key = some f := by
  cases f <;> decide

theorem Field.ofKey?_eq_none {key : Text} (h : ∀ f : Field, f.key ≠ key) : ofKey? key = none :=
  List.find?_eq_none.mpr fun f _ => by simpa using h f

theorem readText_text (t : Text) : readText (Doc.ofValue (.text t)) = .ok t := rfl

theorem readFlag_bool (b : Bool) : readFlag (Doc.ofValue (.bool b)) = .ok b := rfl

theorem readTexts_texts (ts : List Text) : readTexts (Doc.ofValue (texts ts)) = .ok ts := by
  have hitems : (Json.itemDocs (ts.map .text)).mapM readText = .ok ts := by
    induction ts with
    | nil => rfl
    | cons t ts ih =>
      rw [List.map_cons, Json.itemDocs, List.mapM_cons, ih]
      rfl
  change (do
    let texts ← (Json.itemDocs (ts.map .text)).mapM readText
    if true then return texts else throw Problem.notJson) = _
  rw [hitems]
  rfl

theorem readCount_count (n : Nat) : readCount (Doc.ofValue (count n)) = .ok n := by
  simp [readCount, count, Doc.ofValue]

/-- What may be absent is read as it was written. -/
theorem readOptional_optional {α : Type} {reader : Doc → Except Problem α} {write : α → Value}
    (hread : ∀ a, reader (Doc.ofValue (write a)) = .ok a)
    (hnull : ∀ a, Doc.ofValue (write a) ≠ .null) (x : Option α) :
    readOptional reader (Doc.ofValue (optional write x)) = .ok x := by
  cases x with
  | none => rfl
  | some a =>
    have hsome : readOptional reader (Doc.ofValue (write a)) =
        (reader (Doc.ofValue (write a))).map some := by
      unfold readOptional
      split
      · rename_i h
        exact absurd h (hnull a)
      · rfl
    rw [optional, hsome, hread]
    rfl

/-- The draft of options of which some fields were read. -/
def draft (o : Options) (read : List Field) : Draft where
  name := if .name ∈ read then some o.name else none
  entry := if .entry ∈ read then some o.entry else none
  options :=
    { name := []
      entry := []
      template := if .template ∈ read then o.template else none
      banner := if .banner ∈ read then o.banner else none
      footer := if .footer ∈ read then o.footer else none
      modules := if .modules ∈ read then o.modules else none
      ignoreBuildOptions := if .ignoreBuildOptions ∈ read then o.ignoreBuildOptions else none
      debugCookieAge := if .debugCookieAge ∈ read then o.debugCookieAge else none
      esmChunks := if .esmChunks ∈ read then o.esmChunks else none
      esmUnhoistChunks := if .esmUnhoistChunks ∈ read then o.esmUnhoistChunks else none
      baseUrl := if .baseUrl ∈ read then o.baseUrl else none }
  read := read

theorem put_value (o : Options) (read : List Field) (f : Field) :
    (o.draft read).put f (Doc.ofValue (o.value f)) = .ok (o.draft (f :: read)) := by
  have htext := readOptional_optional readText_text nofun
  have htexts := readOptional_optional readTexts_texts nofun
  have hflag := readOptional_optional readFlag_bool nofun
  have hcount := readOptional_optional readCount_count nofun
  -- Each field takes up its own part of the options, and leaves the parts of all others.
  cases f <;>
    simp [Draft.put, value, draft, htext, htexts, hflag, hcount, readText, Doc.ofValue, pure, bind,
      Except.bind, Except.pure]

theorem draft_nil (o : Options) : o.draft [] = .empty := rfl

/-- Fields that were not read yet are read in any order, whatever follows them. -/
theorem readFields_members (o : Options) (read : List Field) {fields : List Field}
    (hnodup : fields.Nodup) (hnew : ∀ f ∈ fields, f ∉ read) (rest : List (Text × Doc)) :
    readFields (o.draft read) (Json.fieldDocs (o.members fields) ++ rest) =
      readFields (o.draft (fields.reverse ++ read)) rest := by
  -- What was read before varies: it is what makes a field a second one.
  induction fields generalizing read with
  | nil => rfl
  | cons f fields ih =>
    obtain ⟨hf, hnodup⟩ := List.nodup_cons.mp hnodup
    have hstep : readFields (o.draft read) (Json.fieldDocs (o.members (f :: fields)) ++ rest) =
        readFields (o.draft (f :: read)) (Json.fieldDocs (o.members fields) ++ rest) := by
      have hread : f ∉ (o.draft read).read := hnew f List.mem_cons_self
      rw [members, List.map_cons, Json.fieldDocs, List.cons_append, readFields, Field.ofKey?_key]
      dsimp only
      rw [if_neg hread, put_value]
      rfl
    have hrest : ∀ g ∈ fields, g ∉ f :: read := by
      intro g hg hmem
      rcases List.mem_cons.mp hmem with rfl | hmem
      · exact hf hg
      · exact hnew g (List.mem_cons_of_mem f hg) hmem
    rw [hstep, ih (f :: read) hnodup hrest, List.reverse_cons, List.append_assoc]
    rfl

theorem readFields_all (o : Options) {fields : List Field} (hnodup : fields.Nodup)
    (rest : List (Text × Doc)) :
    readFields .empty (Json.fieldDocs (o.members fields) ++ rest) =
      readFields (o.draft fields.reverse) rest := by
  have h := o.readFields_members [] hnodup (fun _ _ => List.not_mem_nil) rest
  rwa [draft_nil, List.append_nil] at h

/-- The values of a list are read for the fields in turn. -/
theorem readItems_values (o : Options) (read fields : List Field) :
    readItems (o.draft read) (fields.zip (Json.itemDocs (fields.map o.value))) =
      .ok (o.draft (fields.reverse ++ read)) := by
  induction fields generalizing read with
  | nil => rfl
  | cons f fields ih =>
    have hstep : readItems (o.draft read)
        ((f :: fields).zip (Json.itemDocs ((f :: fields).map o.value))) =
          readItems (o.draft (f :: read)) (fields.zip (Json.itemDocs (fields.map o.value))) := by
      rw [List.map_cons, Json.itemDocs, List.zip_cons_cons, readItems, put_value]
      rfl
    rw [hstep, ih, List.reverse_cons, List.append_assoc]
    rfl

theorem finish_draft (o : Options) (read : List Field) :
    (o.draft read).finish =
      if .name ∉ read then .error (.missingField .name)
      else if .entry ∉ read then .error (.missingField .entry)
      else .ok { (o.draft read).options with name := o.name, entry := o.entry } := by
  unfold Draft.finish draft
  by_cases hname : .name ∈ read
  · by_cases hentry : .entry ∈ read
    · simp [hname, hentry]
    · simp [hname, hentry]
  · simp [hname]

/-- What was not read is absent, so that reading it would not have added anything. -/
theorem ite_read_eq {α : Type} {o : Options} {read : List Field} {f : Field} {write : α → Value}
    {x : Option α} (h : f ∉ read → o.value f = .null) (hvalue : o.value f = optional write x)
    (hnull : ∀ a, write a ≠ .null) : (if f ∈ read then x else none) = x := by
  split
  · rfl
  · rename_i hf
    cases x with
    | none => rfl
    | some a => exact absurd (hvalue.symm.trans (h hf)) (hnull a)

/-- A draft is whole when all that was not read is absent. -/
theorem finish_whole (o : Options) {read : List Field} (h : ∀ f, f ∉ read → o.value f = .null) :
    (o.draft read).finish = .ok o := by
  have hname : .name ∈ read := Decidable.byContradiction fun hno => nomatch h .name hno
  have hentry : .entry ∈ read := Decidable.byContradiction fun hno => nomatch h .entry hno
  rw [finish_draft, if_neg (not_not.mpr hname), if_neg (not_not.mpr hentry)]
  simp only [draft, ite_read_eq (h .template) rfl nofun, ite_read_eq (h .banner) rfl nofun,
    ite_read_eq (h .footer) rfl nofun, ite_read_eq (h .modules) rfl nofun,
    ite_read_eq (h .ignoreBuildOptions) rfl nofun, ite_read_eq (h .debugCookieAge) rfl nofun,
    ite_read_eq (h .esmChunks) rfl nofun, ite_read_eq (h .esmUnhoistChunks) rfl nofun,
    ite_read_eq (h .baseUrl) rfl nofun]

theorem finish_all (o : Options) : (o.draft Field.all.reverse).finish = .ok o :=
  o.finish_whole fun f hf => absurd (List.mem_reverse.mpr f.mem_all) hf

theorem ofText_whole (h : Json.read t = ⟨d, true⟩) :
    ofText t = ofDoc (fun _ => .notJson) d := by
  unfold ofText
  rw [h]
  dsimp only
  cases ofDoc (fun _ => .notJson) d <;> rfl

theorem ofText_error (h : ofDoc (fun _ => .notJson) (Json.read t).doc = .error problem) :
    ofText t = .error problem := by
  unfold ofText
  dsimp only
  rw [h]
  rfl

/-- Without one of the fields, or with each of them once, all is decided at the end. -/
theorem ofText_object (o : Options) {fields : List Field} (hnodup : fields.Nodup)
    (h : Spelled (Value.object (o.members fields)).tokens t) :
    ofText t = (o.draft fields.reverse).finish := by
  have hfields := o.readFields_all hnodup []
  rw [List.append_nil] at hfields
  rw [ofText_whole (Json.read_spelled h), Doc.ofValue, ofDoc, hfields]
  rfl

theorem ofText_list (o : Options) (h : Spelled (Value.list (Field.all.map o.value)).tokens t) :
    ofText t = .ok o := by
  have hlength : (Json.itemDocs (Field.all.map o.value)).length = Field.all.length := rfl
  rw [ofText_whole (Json.read_spelled h), Doc.ofValue, ofDoc, ← o.draft_nil, readItems_values,
    List.append_nil, hlength]
  exact o.finish_all

/-- A key is judged with the fields before it in mind, whatever follows it. -/
theorem ofText_front (o : Options) {fields : List Field} (hnodup : fields.Nodup)
    (h : Spelled (.openObject :: Json.keyTokens (o.members fields) key) front)
    (hkey : ∀ d more, readFields (o.draft fields.reverse) ((key, d) :: more) = .error problem)
    (rest : Text) : ofText (front ++ rest) = .error problem := by
  obtain ⟨d, more, closed, hdoc⟩ := Json.read_front h rest
  apply ofText_error
  rw [hdoc, ofDoc, readFields_all o hnodup, hkey]
  rfl

theorem fits_texts (ts : List Text) : Json.Fits (texts ts).tokens := by
  refine Json.fits_list fun v hv => ?_
  obtain ⟨t, -, rfl⟩ := List.mem_map.mp hv
  nofun

theorem fits_optional {α : Type} {write : α → Value} {x : Option α}
    (h : ∀ a ∈ x, Json.Fits (write a).tokens) : Json.Fits (optional write x).tokens := by
  cases x with
  | none => nofun
  | some a => exact h a rfl

theorem fits_value {o : Options} (hage : ∀ n ∈ o.debugCookieAge, n < 2 ^ 64) (f : Field) :
    Json.Fits (o.value f).tokens := by
  cases f with
  | name | entry => nofun
  | template | banner | footer | baseUrl | ignoreBuildOptions | esmChunks =>
    exact fits_optional fun _ _ => nofun
  | modules | esmUnhoistChunks => exact fits_optional fun ts _ => fits_texts ts
  | debugCookieAge =>
    refine fits_optional fun n hn m hm => ⟨n, ?_, ?_, ?_⟩
    · simpa [count, Value.tokens] using hm
    · omega
    · exact_mod_cast hage n hn

theorem fits_members {o : Options} (hage : ∀ n ∈ o.debugCookieAge, n < 2 ^ 64)
    (fields : List Field) : Json.Fits (Value.object (o.members fields)).tokens := by
  refine Json.fits_object fun m hm => ?_
  obtain ⟨f, -, rfl⟩ := List.mem_map.mp hm
  exact fits_value hage f

/-- A text from which options are read, and with them the settings they stand for. -/
def Gives (o : Options) (t : Text) : Prop :=
  ofText t = .ok o ∧ (ofText t).map settings = .ok o.settings

theorem Gives.of_eq {o : Options} (h : ofText t = .ok o) : o.Gives t :=
  ⟨h, congrArg (Except.map settings) h⟩

/-- Options are read from any text that spells them: an object with its fields in any order, where
what is absent may be left out, or a list. The text that is written of them is one of these, if the
count has 64 bits. They are not read from an object with any other key, with a key twice, or without
one of the fields that have to be there; of a key that does not belong there this is so wherever it
stands, and whatever follows it. -/
structure ReadStrictly (o : Options) : Prop where
  object : ∀ fields t, fields.Nodup → (∀ f, f ∉ fields → o.value f = .null) →
    Spelled (Value.object (o.members fields)).tokens t → o.Gives t
  list : ∀ t, Spelled (Value.list (Field.all.map o.value)).tokens t → o.Gives t
  written : (∀ n ∈ o.debugCookieAge, n < 2 ^ 64) →
    o.Gives (Json.compact (.object (o.members Field.all)))
  unknown : ∀ fields key front rest, fields.Nodup → (∀ f : Field, f.key ≠ key) →
    Spelled (.openObject :: Json.keyTokens (o.members fields) key) front →
      ofText (front ++ rest) = .error (.unknownField key)
  duplicate : ∀ fields f front rest, fields.Nodup → f ∈ fields →
    Spelled (.openObject :: Json.keyTokens (o.members fields) f.key) front →
      ofText (front ++ rest) = .error (.duplicateField f)
  missing : ∀ fields t, fields.Nodup → .name ∉ fields ∨ .entry ∉ fields →
    Spelled (Value.object (o.members fields)).tokens t →
      ofText t = .error (.missingField (if .name ∈ fields then .entry else .name))

theorem reads_strictly (o : Options) : o.ReadStrictly where
  object fields t hnodup habsent h := by
    refine .of_eq ((o.ofText_object hnodup h).trans (o.finish_whole fun f hf => habsent f ?_))
    rwa [List.mem_reverse] at hf
  list t h := .of_eq (o.ofText_list h)
  written hage := by
    have hspelled := Json.spelled_compact _ (fits_members hage Field.all)
    exact .of_eq ((o.ofText_object (by decide) hspelled).trans o.finish_all)
  unknown fields key front rest hnodup hkey h := by
    refine o.ofText_front hnodup h (fun d more => ?_) rest
    rw [readFields, Field.ofKey?_eq_none hkey]
  duplicate fields f front rest hnodup hf h := by
    refine o.ofText_front hnodup h (fun d more => ?_) rest
    rw [readFields, Field.ofKey?_key]
    exact if_pos (List.mem_reverse.mpr hf)
  missing fields t hnodup hmissing h := by
    rw [o.ofText_object hnodup h, finish_draft]
    simp only [List.mem_reverse]
    by_cases hname : .name ∈ fields
    · rw [if_neg (not_not.mpr hname), if_pos (hmissing.resolve_left (not_not.mpr hname)),
        if_pos hname]
    · rw [if_pos hname, if_neg hname]

/-- Its last field first, with white space and an escape that nobody needs. -/
theorem escapedName_read :
    Gives ⟨"x".toList, "y.ts".toList, none, none, none, none, none, some 18446744073709551615, none,
        none, none⟩
      ("\x7b\n\"resourceLoaderDebugCookieAge\" :18446744073709551615,".toList ++
        "\"entry\":\"y.ts\",\"name\":\t\"\\u0078\"\x7d\n".toList) := by
  have hname : Json.SpellsText ['x'] ['\\', 'u', '0', '0', '7', '8'] := by
    refine ⟨[['\\', 'u', '0', '0', '7', '8']], .cons (.unit ⟨'0', '0', '7', '8', rfl, ?_⟩) .nil, rfl⟩
    unfold Json.SpellsDigit
    decide
  have hspelled := Spelled.cons (w := []) (by decide) .openObject <|
    .cons (w := ['\n']) (by decide) (.quote Field.debugCookieAge.key) <|
    .cons (w := [' ']) (by decide) .colon <|
    .cons (w := []) (by decide) (.integer (n := 18446744073709551615) (by decide) (by decide)) <|
    .cons (w := []) (by decide) .comma <|
    .cons (w := []) (by decide) (.quote Field.entry.key) <|
    .cons (w := []) (by decide) .colon <|
    .cons (w := []) (by decide) (.quote "y.ts".toList) <|
    .cons (w := []) (by decide) .comma <|
    .cons (w := []) (by decide) (.quote Field.name.key) <|
    .cons (w := []) (by decide) .colon <|
    .cons (w := ['\t']) (by decide) (.text hname) <|
    .cons (w := []) (by decide) .closeObject <|
    .nil (w := ['\n']) (by decide)
  refine (reads_strictly _).object [.debugCookieAge, .entry, .name] _ (by decide) ?_ hspelled
  intro f hf
  cases f <;> first | rfl | simp at hf

end GadgetBuild.Options
