import GadgetBuild.Import.Scan
import GadgetBuild.Json.Quote
import GadgetBuild.Overlay.Tracing

/-!
Named imports of external modules as calls of `require`. The clause is moved and not printed anew,
so that the names in it keep their places in the source map.
-/

namespace GadgetBuild.Import

/-- The call by which a module is had at run time. -/
def runtimeRequire (name : Text) : Text :=
  "require(".toList ++ Json.quote name ++ ")".toList

/-- The constant that holds the `n`th module. -/
def moduleConstant (n : Nat) : Text :=
  "__mw_module".toList ++ Text.ofNat n

/-- The edits that turn the `n`th statement into two declarations: of the module, and of the names
that are taken from it. -/
def Statement.edits (n : Nat) (s : Statement) : List Overlay.Edit :=
  [.update ⟨s.span.start, s.clause.start⟩ ("const ".toList ++ moduleConstant n ++ " = ".toList),
    .update ⟨s.clause.stop, s.span.stop⟩ (runtimeRequire s.module.name ++ [';']),
    .insert .left .back s.span.stop "const ".toList,
    .insert .left .back s.clause.stop (" = ".toList ++ moduleConstant n ++ [';'])] ++
  ((s.bindings.filterMap (·.separator)).map fun separator => .update separator ": ".toList) ++
  [.relocate s.clause s.span.stop]

/-- The edits of statements, the first of which is the `n`th. -/
def editsFrom (n : Nat) : List Statement → List Overlay.Edit
  | [] => []
  | s :: statements => s.edits n ++ editsFrom (n + 1) statements

/-- The code with a call in place of each statement, or `none` when it has no statement. -/
def toRequires (id code : Text) : Except Failure (Option Traced) := do
  match ← scan code with
  | [] => return none
  | statements =>
    let overlay ← ((Overlay.ofText code).applyAll (editsFrom 0 statements)).mapError Failure.edit
    return some (← (overlay.trace id).mapError Failure.edit)

end GadgetBuild.Import
