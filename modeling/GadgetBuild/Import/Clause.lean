import GadgetBuild.Failure
import GadgetBuild.Text.Blank
import GadgetBuild.Text.Search

/-!
The entries between the braces of a named import: `name`, or `name as name`, with commas between
them and perhaps one behind the last.
-/

namespace GadgetBuild.Import

/-- One imported name. The local name is the exported one unless `as` gives another. -/
structure Binding where
  exported : Text
  localName : Text
  /-- From the end of the exported name to the start of the local one. -/
  separator : Option Span
  deriving DecidableEq, Repr

def asWord : Text := "as".toList

/-- What is wrong with the words of an entry that is none of the two forms. -/
def faultOf (words : List Text) : ClauseFault :=
  match words with
  | [first, second] =>
    if first = asWord then .noImportedName
    else if second = asWord then .noLocalName
    else .strayBlank
  | _ => if 1 < words.count asWord then .manyAliases else .strayBlank

/-- The binding that an entry spells. `offset` is where the entry begins. -/
def Binding.ofEntry (offset : Nat) (entry : Text) : Except ClauseFault Binding :=
  match Text.occurrencesFrom Text.word? offset 0 entry with
  | [name] => .ok ⟨name.text, name.text, none⟩
  | [name, separator, other] =>
    if separator.text = asWord then
      .ok ⟨name.text, other.text, some ⟨name.stop, other.start⟩⟩
    else .error (faultOf [name.text, separator.text, other.text])
  | words => .error (faultOf (words.map (·.text)))

/-- The bindings of entries, the first of which begins at `offset`. Only the last entry may be blank,
and only behind another. -/
def bindingsFrom (offset : Nat) (behindOther : Bool) : List Text → Except ClauseFault (List Binding)
  | [] => .ok []
  | entry :: entries =>
    if entry.all isBlank then
      if entries = [] ∧ behindOther then .ok [] else .error .empty
    else do
      let binding ← Binding.ofEntry offset entry
      let bindings ← bindingsFrom (offset + entry.size + 1) true entries
      return binding :: bindings

/-- The bindings of what stands between the braces. -/
def readClause (offset : Nat) (interior : Text) : Except ClauseFault (List Binding) :=
  bindingsFrom offset false (interior.pieces [','])

end GadgetBuild.Import
