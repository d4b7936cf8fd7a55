import GadgetBuild.Text

/-!
Sets of module ids, in increasing order.
-/

namespace GadgetBuild

abbrev ModuleIds := List Text

namespace ModuleIds

def insert (id : Text) : ModuleIds → ModuleIds
  | [] => [id]
  | i :: ids => if id < i then id :: i :: ids else if id = i then i :: ids else i :: insert id ids

def ofList (ids : List Text) : ModuleIds :=
  ids.foldl (fun set id => insert id set) []

/-- Where an id stands. -/
def position? (id : Text) (ids : ModuleIds) : Option Nat :=
  ids.findIdx? (· = id)

end ModuleIds
end GadgetBuild
