import GadgetBuild.Json.Token

/-!
Documents: what can be told of a JSON text as far as it makes sense. A reader that knows which
fields it wants walks a document in the order of the text, and so meets a wrong field before a
fault of the syntax that stands behind it.
-/

namespace GadgetBuild.Json

/-- A value as far as it was read. A container that is not closed ends in a fault. -/
inductive Doc where
  | broken
  | null
  | bool (b : Bool)
  | number (n : Number)
  | text (t : Text)
  | list (items : List Doc) (closed : Bool)
  | object (fields : List (Text × Doc)) (closed : Bool)

/-- A container part way through, its entries in reverse. -/
inductive Frame where
  | list (items : List Doc)
  | object (fields : List (Text × Doc)) (key : Text)

/-- What a text may go on with. -/
inductive Awaited where
  | value
  | firstItem
  | behindEntry
  | firstKey (fields : List (Text × Doc))
  | key (fields : List (Text × Doc))
  | colon

/-- A document, and whether its text holds it whole and nothing else. -/
structure Reading where
  doc : Doc
  whole : Bool

inductive Progress where
  | reading (awaited : Awaited) (frames : List Frame)
  | finished (doc : Doc)
  | stopped (doc : Doc)

/-- Puts a value that ends the text into the containers around it, none of which is closed. -/
def enclose : List Frame → Doc → Doc
  | [], d => d
  | .list items :: frames, d => enclose frames (.list (d :: items).reverse false)
  | .object fields key :: frames, d => enclose frames (.object ((key, d) :: fields).reverse false)

/-- Gives a whole value to the container that waits for it. -/
def settle (d : Doc) : List Frame → Progress
  | [] => .finished d
  | .list items :: frames => .reading .behindEntry (.list (d :: items) :: frames)
  | .object fields key :: frames =>
    .reading .behindEntry (.object ((key, d) :: fields) key :: frames)

/-- The document of a text that ends in the middle. -/
def cutShort : Awaited → List Frame → Doc
  | .firstItem, frames => enclose frames (.list [] false)
  | .firstKey fields, frames => enclose frames (.object fields.reverse false)
  | .key fields, frames => enclose frames (.object fields.reverse false)
  | .behindEntry, .list items :: frames => enclose frames (.list items.reverse false)
  | .behindEntry, .object fields _ :: frames => enclose frames (.object fields.reverse false)
  | _, frames => enclose frames .broken

/-- Takes up the token of a value. -/
def readValue (frames : List Frame) : Token → Option Progress
  | .openList => some (.reading .firstItem frames)
  | .openObject => some (.reading (.firstKey []) frames)
  | .null => some (settle .null frames)
  | .bool b => some (settle (.bool b) frames)
  | .number n => some (settle (.number n) frames)
  | .text t => some (settle (.text t) frames)
  | _ => none

/-- Takes up a token where one may stand. -/
def accept? : Awaited → List Frame → Token → Option Progress
  | .value, frames, token => readValue frames token
  | .firstItem, frames, .closeList => some (settle (.list [] true) frames)
  | .firstItem, frames, token => readValue (.list [] :: frames) token
  | .firstKey fields, frames, .closeObject => some (settle (.object fields.reverse true) frames)
  | .firstKey fields, frames, .text k => some (.reading .colon (.object fields k :: frames))
  | .key fields, frames, .text k => some (.reading .colon (.object fields k :: frames))
  | .colon, frames, .colon => some (.reading .value frames)
  | .behindEntry, .list items :: frames, .comma => some (.reading .value (.list items :: frames))
  | .behindEntry, .list items :: frames, .closeList =>
    some (settle (.list items.reverse true) frames)
  | .behindEntry, .object fields _ :: frames, .comma => some (.reading (.key fields) frames)
  | .behindEntry, .object fields _ :: frames, .closeObject =>
    some (settle (.object fields.reverse true) frames)
  | _, _, _ => none

def Progress.step : Progress → Token → Progress
  | .reading awaited frames, token =>
    (accept? awaited frames token).getD (.stopped (cutShort awaited frames))
  | .finished d, _ => .stopped d
  | .stopped d, _ => .stopped d

def Progress.result : Progress → Reading
  | .reading awaited frames => ⟨cutShort awaited frames, false⟩
  | .finished d => ⟨d, true⟩
  | .stopped d => ⟨d, false⟩

/-- The document of a sequence of tokens. -/
def Reading.ofTokens (tokens : List Token) : Reading :=
  (tokens.foldl Progress.step (.reading .value [])).result

/-- The document of a text. -/
def read (t : Text) : Reading :=
  .ofTokens (tokens t)

mutual

/-- The value of a document that was read whole. Fields are ordered by key, the last of each. -/
def Doc.value? : Doc → Option Value
  | .broken => none
  | .null => some .null
  | .bool b => some (.bool b)
  | .number n => some (.number n)
  | .text t => some (.text t)
  | .list items closed => if closed then (itemValues? items).map .list else none
  | .object fields closed =>
    if closed then (fieldValues? fields).map fun fs => .object (orderFields fs) else none

def itemValues? : List Doc → Option (List Value)
  | [] => some []
  | d :: ds => d.value?.bind fun v => (itemValues? ds).map (v :: ·)

def fieldValues? : List (Text × Doc) → Option (List (Text × Value))
  | [] => some []
  | (k, d) :: ds => d.value?.bind fun v => (fieldValues? ds).map ((k, v) :: ·)

end

mutual

/-- A value as a document. -/
def Doc.ofValue : Value → Doc
  | .null => .null
  | .bool b => .bool b
  | .number n => .number n
  | .text t => .text t
  | .list items => .list (itemDocs items) true
  | .object fields => .object (fieldDocs fields) true

def itemDocs : List Value → List Doc
  | [] => []
  | v :: vs => Doc.ofValue v :: itemDocs vs

def fieldDocs : List (Text × Value) → List (Text × Doc)
  | [] => []
  | (k, v) :: fs => (k, Doc.ofValue v) :: fieldDocs fs

end

/-- The value a text spells. -/
def parse? (t : Text) : Option Value :=
  let r := read t
  if r.whole then r.doc.value? else none

end GadgetBuild.Json
