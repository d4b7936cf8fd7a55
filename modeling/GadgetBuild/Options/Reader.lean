import GadgetBuild.Json.Doc
import GadgetBuild.Options.Problem

/-!
Reading options from a document: an object with the known fields in any order, each once, or a list
of all of them in their own order. The first problem in the order of the text is the answer.
-/

namespace GadgetBuild.Options

open Json (Doc)

/-- What a document is found to be by a reader that wants something else. -/
def wrongType (wanted : Wanted) : Doc → Problem
  | .broken => .notJson
  | .null => .wrongType .null wanted
  | .bool b => .wrongType (.flag b) wanted
  | .number n => .wrongType (.number n) wanted
  | .text t => .wrongType (.text t) wanted
  | .list _ _ => .wrongType .list wanted
  | .object _ _ => .wrongType .object wanted

def readText : Doc → Except Problem Text
  | .text t => .ok t
  | d => .error (wrongType .text d)

def readFlag : Doc → Except Problem Bool
  | .bool b => .ok b
  | d => .error (wrongType .flag d)

def readCount : Doc → Except Problem Nat
  | .number (.integer n) => if 0 ≤ n then .ok n.toNat else .error (.negativeCount n)
  | d => .error (wrongType .count d)

/-- The texts of a list are read before it is seen whether the list ends. -/
def readTexts : Doc → Except Problem (List Text)
  | .list items closed => do
    let texts ← items.mapM readText
    if closed then return texts else throw .notJson
  | d => .error (wrongType .texts d)

/-- A field that may be absent is absent too when it is null. -/
def readOptional {α : Type} (reader : Doc → Except Problem α) : Doc → Except Problem (Option α)
  | .null => .ok none
  | d => (reader d).map some

/-- Options of which some fields were read. -/
structure Draft where
  name : Option Text
  entry : Option Text
  options : Options
  /-- The fields that were read. -/
  read : List Field

def Draft.empty : Draft :=
  ⟨none, none, ⟨[], [], none, none, none, none, none, none, none, none, none⟩, []⟩

/-- Takes up the value of a field. -/
def Draft.put (field : Field) (d : Doc) (draft : Draft) : Except Problem Draft := do
  let o := draft.options
  let draft := { draft with read := field :: draft.read }
  match field with
  | .name => return { draft with name := some (← readText d) }
  | .entry => return { draft with entry := some (← readText d) }
  | .template =>
    return { draft with options := { o with template := ← readOptional readText d } }
  | .banner => return { draft with options := { o with banner := ← readOptional readText d } }
  | .footer => return { draft with options := { o with footer := ← readOptional readText d } }
  | .modules => return { draft with options := { o with modules := ← readOptional readTexts d } }
  | .ignoreBuildOptions =>
    return { draft with options := { o with ignoreBuildOptions := ← readOptional readFlag d } }
  | .debugCookieAge =>
    return { draft with options := { o with debugCookieAge := ← readOptional readCount d } }
  | .esmChunks =>
    return { draft with options := { o with esmChunks := ← readOptional readFlag d } }
  | .esmUnhoistChunks =>
    return { draft with options := { o with esmUnhoistChunks := ← readOptional readTexts d } }
  | .baseUrl => return { draft with options := { o with baseUrl := ← readOptional readText d } }

/-- A name and an entry make a draft whole. -/
def Draft.finish (draft : Draft) : Except Problem Options :=
  match draft.name, draft.entry with
  | none, _ => .error (.missingField .name)
  | some _, none => .error (.missingField .entry)
  | some name, some entry => .ok { draft.options with name := name, entry := entry }

/-- A key is judged before its value is looked at. -/
def readFields (draft : Draft) : List (Text × Doc) → Except Problem Draft
  | [] => .ok draft
  | (key, d) :: rest =>
    match Field.ofKey? key with
    | none => .error (.unknownField key)
    | some field =>
      if field ∈ draft.read then .error (.duplicateField field)
      else do
        let draft ← draft.put field d
        readFields draft rest

/-- The values of a list belong to the fields in turn. -/
def readItems (draft : Draft) : List (Field × Doc) → Except Problem Draft
  | [] => .ok draft
  | (field, d) :: rest => do
    let draft ← draft.put field d
    readItems draft rest

/-- Options from a document. `surplus` is the problem of a list that has as many items as it is
given, and that is too many. -/
def ofDoc (surplus : Nat → Problem) : Doc → Except Problem Options
  | .object fields closed => do
    let draft ← readFields .empty fields
    if closed then draft.finish else throw .notJson
  | .list items closed => do
    let draft ← readItems .empty (Field.all.zip items)
    if items.length < Field.all.length then
      throw (if closed then .tooShort items.length else .notJson)
    if Field.all.length < items.length then throw (surplus items.length)
    if closed then draft.finish else throw .notJson
  | d => .error (wrongType .options d)

/-- Options from a JSON text. -/
def ofText (t : Text) : Except Problem Options := do
  let reading := Json.read t
  let options ← ofDoc (fun _ => .notJson) reading.doc
  if reading.whole then return options else throw .notJson

/-- Options from a JSON value. -/
def ofValue (v : Json.Value) : Except Problem Options :=
  ofDoc .tooLong (Doc.ofValue v)

end GadgetBuild.Options
