/-! Lists of entries in the order of their keys, by code point, with each key once. -/
namespace FieldProcedure.Keyed

variable {α : Type}

def place (key : String) (value : α) : List (String × α) → List (String × α)
  | [] => [(key, value)]
  | (k, v) :: rest =>
    if key = k then (key, value) :: rest
    else if key < k then (key, value) :: (k, v) :: rest
    else (k, v) :: place key value rest

def ofList (pairs : List (String × α)) : List (String × α) :=
  pairs.foldl (fun entries (key, value) => place key value entries) []

end FieldProcedure.Keyed
