import GadgetBuild.External
import GadgetBuild.Import.Clause
import GadgetBuild.Text.Word

/-!
Finding the named imports of virtual ids. A statement has one exact spelling; what begins like one
and is spelled otherwise is a failure, so that it cannot pass unnoticed.
-/

namespace GadgetBuild.Import

/-- What a statement is made of: the clause with its braces, and the name of the module. -/
structure Parts where
  clause : Text
  module : Text
  deriving DecidableEq, Repr

/-- The characters that end a statement. -/
def statementEnd : Text := "\";".toList

/-- A statement at the front of a text. -/
def statement? (t : Text) : Option (Text × Parts) := do
  let t ← Text.after? "import \x7b".toList t
  let interior := t.takeWhile (· ≠ '\x7d')
  if interior = [] then none
  let t ← Text.after? "\x7d from \"".toList (t.dropWhile (· ≠ '\x7d'))
  let (lead, t) ← ExternalModule.afterLead? t
  let name := t.takeWhile (· ≠ '"')
  if name = [] then none
  let _ ← Text.after? statementEnd (t.dropWhile (· ≠ '"'))
  let clause := '\x7b' :: interior ++ ['\x7d']
  return ("import ".toList ++ clause ++ " from \"".toList ++ lead ++ name ++ statementEnd,
    ⟨clause, name⟩)

/-- A text ends in the word `from`, perhaps with blanks behind it. -/
def endsInFrom (t : Text) : Bool :=
  match Text.after? "from".toList.reverse (t.reverse.dropWhile isBlank) with
  | none => false
  | some [] => true
  | some (c :: _) => !Text.isWord c

/-- The beginning of a named import of a virtual id, however it is spelled, and the name as far as
it goes without quotes and blanks. -/
def opening? (t : Text) : Option (Text × Text) := do
  let t ← Text.after? "import".toList t
  let blanks := t.takeWhile isBlank
  let t ← Text.after? ['\x7b'] (t.dropWhile isBlank)
  let ends (c : Char) : Bool := c = ';' || c = '"' || c = '\''
  let interior := t.takeWhile (!ends ·)
  if !endsInFrom interior then none
  match t.dropWhile (!ends ·) with
  | [] => none
  | quote :: t =>
    if quote = ';' then none
    let (lead, t) ← ExternalModule.afterLead? t
    let name := t.takeWhile fun c => !(c = '"' || c = '\'' || isBlank c)
    return ("import".toList ++ blanks ++ '\x7b' :: interior ++ quote :: lead ++ name, name)

/-- A named import of an external module. -/
structure Statement where
  span : Span
  /-- The clause with its braces. -/
  clause : Span
  module : ExternalModule
  bindings : List Binding
  deriving DecidableEq, Repr

/-- Where the clause stands in a statement. -/
def clauseOffset : Nat := 7

/-- The statement at an occurrence, if its clause is well formed. -/
def Statement.ofOccurrence (o : Text.Occurrence Parts) : Except Failure Statement :=
  let start := o.start + clauseOffset
  let clause : Span := ⟨start, start + o.value.clause.size⟩
  match readClause (start + 1) (o.value.clause.drop 1).dropLast with
  | .error fault => .error (.malformedClause o.value.module o.value.clause fault)
  | .ok bindings => .ok ⟨⟨o.start, o.stop⟩, clause, ⟨o.value.module⟩, bindings⟩

/-- A text up to its first line break. A carriage return belongs to the break. -/
def firstLine (t : Text) : Text :=
  let line := t.takeWhile (· ≠ '\n')
  if line.length < t.length ∧ line.getLast? = some '\r' then line.dropLast else line

/-- Every named import of an external module, in the order of the text. -/
def scan (code : Text) : Except Failure (List Statement) := do
  let statements ← (Text.occurrences statement? code).mapM Statement.ofOccurrence
  let stray := (Text.occurrences opening? code).find? fun o =>
    statements.all (·.span.start ≠ o.start)
  match stray with
  | some o => throw (.unrecognizedImport o.value (firstLine (code.beyond o.start)))
  | none => return statements

end GadgetBuild.Import
