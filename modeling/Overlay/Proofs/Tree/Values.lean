import Overlay.Proofs.Name
import Overlay.Tree.Merge
import Mathlib.Data.List.Induction

namespace Overlay

namespace Property

/-- The value of a property after a declaration. Elements to append go behind those of an array;
anything else replaces what was there. -/
def after (p : Property) (current : Option Value) : Value :=
  match p.append, current, p.value with
  | true, some (.array items), .array more => .array (items ++ more)
  | _, _, declared => declared

def settled (current : Option Value) (ps : List Property) : Option Value :=
  ps.foldl (fun value p => some (p.after value)) current

variable {p : Property} {ps : List Property}

theorem after_none (p : Property) : p.after none = p.value := by
  unfold after
  split <;> simp_all

theorem after_some (p : Property) (v : Value) : p.after (some v) = v.update p.append p.value := by
  unfold after Value.update
  cases p.append <;> cases v <;> cases p.value <;> rfl

theorem after_of_plain (h : p.append = false) (current : Option Value) :
    p.after current = p.value := by
  unfold after
  rw [h]

/-- Elements to append end up at the end of an array, if need be of one that has no others. -/
theorem after_of_append {more : List Scalar} (h : p.append = true) (hv : p.value = .array more)
    (current : Option Value) : ∃ items, p.after current = .array (items ++ more) := by
  unfold after
  rw [h, hv]
  rcases current with _ | ⟨s⟩ | ⟨items⟩
  · exact ⟨[], rfl⟩
  · exact ⟨[], rfl⟩
  · exact ⟨items, rfl⟩

theorem settled_append (current : Option Value) (ps more : List Property) :
    settled current (ps ++ more) = settled (settled current ps) more :=
  List.foldl_append

/-- Where the last declaration assigns, nothing in front of it counts. -/
theorem settled_of_plain (hp : ∀ p ∈ ps, p.append = false) (hn : ps ≠ [])
    (current other : Option Value) : settled current ps = settled other ps := by
  induction ps using List.reverseRecOn with
  | nil => exact absurd rfl hn
  | append_singleton ps p _ =>
    have hlast := hp p (List.mem_append_right ps (List.mem_singleton_self p))
    rw [settled_append, settled_append]
    exact congrArg some
      ((after_of_plain hlast (settled current ps)).trans (after_of_plain hlast _).symm)

theorem settled_eq_none {current : Option Value} :
    settled current ps = none ↔ current = none ∧ ps = [] := by
  induction ps using List.reverseRecOn with
  | nil => simp [settled]
  | append_singleton ps p _ => simp [settled]

end Property

namespace Class

def value? (c : Class) (key : String) : Option Value := (c.property? key).map Member.value

theorem foldl_assign (c : Class) (ps : List Property) :
    ps.foldl assign c = { c with
      properties := ps.foldl
        (fun all p => Roster.absorb (fun m => m.update p) ⟨p.name, p.value⟩ all)
        c.properties } := by
  induction ps generalizing c with
  | nil => cases c; rfl
  | cons p ps ih => exact ih (c.assign p)

/-- Taking over declarations settles each property on its own. -/
theorem value_foldl_assign (c : Class) (ps : List Property) (key : String) :
    (ps.foldl assign c).value? key = Property.settled (c.value? key) (Roster.bearing key ps) := by
  have hfind := Roster.find_foldl_absorb (fun p : Property => (⟨p.name, p.value⟩ : Member))
    (fun p m => m.update p) (fun p => rfl) (fun p m => rfl) key ps c.properties
  rw [value?, property?, foldl_assign, hfind]
  -- a member's value follows the same steps as the member
  apply (List.foldl_hom (Option.map Member.value) _).symm
  intro found p
  cases found with
  | none => exact congrArg some (Property.after_none p)
  | some m => exact congrArg some (Property.after_some p m.value)

end Class

end Overlay
