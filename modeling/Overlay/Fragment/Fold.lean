import Overlay.Fragment

namespace Overlay

/-- A later declaration of the same property. Elements to append go behind those of an array, and
the earlier declaration keeps its own mark; anything else replaces value and mark. -/
def Property.join (later earlier : Property) : Property :=
  match later.append, earlier.value, later.value with
  | true, .array items, .array more => { earlier with value := .array (items ++ more) }
  | _, _, value => { earlier with value := value, append := later.append }

def Property.fold (declared : List Property) (p : Property) : List Property :=
  Roster.absorb p.join p declared

namespace Declaration

mutual

/-- A later declaration of the same class. An announcement adds nothing and gives way to a body;
of two bodies the members are folded, and the later base counts. -/
def join (earlier : Declaration) : Declaration → Declaration
  | .forward _ _ => earlier
  | .body name base properties children position =>
    match earlier with
    | .forward _ _ => .body name base properties children position
    | .body name₀ base₀ properties₀ children₀ position₀ =>
      .body name₀ (base <|> base₀) (properties.foldl Property.fold properties₀)
        (foldAll children₀ children) position₀

def foldAll (siblings : List Declaration) : List Declaration → List Declaration
  | [] => siblings
  | d :: ds => foldAll (Roster.absorb (fun earlier => join earlier d) d siblings) ds

end

def fold (siblings : List Declaration) (d : Declaration) : List Declaration :=
  Roster.absorb (fun earlier => earlier.join d) d siblings

/-- Folding declarations into siblings is a fold from the left, so that lemmas about folds apply. -/
theorem foldAll_eq_foldl (siblings ds : List Declaration) :
    foldAll siblings ds = ds.foldl fold siblings := by
  induction ds generalizing siblings with
  | nil => simp [foldAll]
  | cons d ds ih => simp [foldAll, fold, ih]

end Declaration

end Overlay
