import GadgetBuild.Text

/-!
Tables: entries by key, in the order in which their keys came first.
-/

namespace GadgetBuild

abbrev Table (α : Type) := List (Text × α)

namespace Table

variable {α : Type}

/-- Sets the entry of a key. A key that is there keeps its place. -/
def put (key : Text) (value : α) : Table α → Table α
  | [] => [(key, value)]
  | (k, v) :: rest => if k = key then (k, value) :: rest else (k, v) :: put key value rest

def get? (key : Text) (t : Table α) : Option α :=
  (t.find? (·.1 = key)).map (·.2)

def erase (key : Text) (t : Table α) : Table α :=
  t.filter (·.1 ≠ key)

def ofList (entries : List (Text × α)) : Table α :=
  entries.foldl (fun t e => put e.1 e.2 t) []

end Table
end GadgetBuild
