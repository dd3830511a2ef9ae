namespace Overlay.Entries

variable {α : Type}

/-- Puts a value under a name. A name that is there already keeps its place. -/
def put (name : String) (value : α) : List (String × α) → List (String × α)
  | [] => [(name, value)]
  | (n, old) :: rest => if n = name then (n, value) :: rest else (n, old) :: put name value rest

def ofList (entries : List (String × α)) : List (String × α) :=
  entries.foldl (fun known (name, value) => put name value known) []

end Overlay.Entries
