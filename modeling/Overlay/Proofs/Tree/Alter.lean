import Overlay.Proofs.Name
import Overlay.Tree

namespace Overlay.Roster

variable {α : Type} [Named α] {members : List α} {f g : α → α} {key : String}

theorem find_change {a : α} (h : find? key members = some a) (hf : keyOf (f a) = keyOf a) :
    find? key (change key f members) = some (f a) := by
  induction members with
  | nil => simp [find?] at h
  | cons b bs ih =>
    by_cases hb : keyOf b = key
    · have hab : b = a := by simpa [find?, hb] using h
      rw [hab] at hb
      simp [find?, change, hab, hb, hf]
    · have hrest : find? key bs = some a := by simpa [find?, hb] using h
      have ih := ih hrest
      rw [find?] at ih
      simp [find?, change, hb, ih]

theorem find_change_of_ne {other : String} (ho : other ≠ key)
    (hf : ∀ a ∈ members, keyOf (f a) = keyOf a) :
    find? other (change key f members) = find? other members := by
  induction members with
  | nil => rfl
  | cons b bs ih =>
    obtain ⟨hfb, hfbs⟩ := List.forall_mem_cons.mp hf
    by_cases hb : keyOf b = key
    · have hne : keyOf b ≠ other := fun h => ho (h.symm.trans hb)
      rw [change, if_pos hb, find_cons, find_cons, hfb, if_neg hne, if_neg hne]
    · rw [change, if_neg hb, find_cons, find_cons, ih hfbs]

theorem find_change_self (hf : ∀ a ∈ members, keyOf (f a) = keyOf a) :
    find? key (change key f members) = (find? key members).map f := by
  cases h : find? key members with
  | some a => exact find_change h (hf a (mem_of_find h))
  | none =>
    rw [Option.map_none, find_eq_none_iff, keys_change hf]
    exact find_eq_none_iff.mp h

theorem change_congr {a : α} (h : find? key members = some a) (he : f a = g a) :
    change key f members = change key g members := by
  induction members with
  | nil => rfl
  | cons b bs ih =>
    by_cases hb : keyOf b = key
    · have hab : b = a := by simpa [find?, hb] using h
      rw [change, change, if_pos hb, if_pos hb, hab, he]
    · have hrest : find? key bs = some a := by simpa [find?, hb] using h
      rw [change, change, if_neg hb, if_neg hb, ih hrest]

theorem change_change (hf : ∀ a ∈ members, keyOf (f a) = keyOf a) :
    change key g (change key f members) = change key (fun a => g (f a)) members := by
  induction members with
  | nil => rfl
  | cons b bs ih =>
    obtain ⟨hfb, hfbs⟩ := List.forall_mem_cons.mp hf
    by_cases hb : keyOf b = key
    · rw [change, if_pos hb, change, if_pos (hfb.trans hb), change, if_pos hb]
    · rw [change, if_neg hb, change, if_neg hb, change, if_neg hb, ih hfbs]

theorem change_append {more : List α} (h : key ∉ keys members) :
    change key f (members ++ more) = members ++ change key f more := by
  induction members with
  | nil => rfl
  | cons b bs ih =>
    rw [keys, List.map_cons, List.mem_cons, not_or] at h
    rw [List.cons_append, change, if_neg (Ne.symm h.1), ih h.2, List.cons_append]

theorem change_self (members : List α) : change key (fun a => a) members = members := by
  induction members with
  | nil => rfl
  | cons b bs ih =>
    rw [change, ih]
    exact ite_self _

theorem find_append {more : List α} (h : key ∉ keys members) :
    find? key (members ++ more) = find? key more := by
  have hnone := find_eq_none_iff.mpr h
  rw [find?] at hnone
  rw [find?, List.find?_append, hnone]
  rfl

end Overlay.Roster

namespace Overlay.Class

variable {c d : Class} {f g : Class → Class} {path : List String}

theorem alter_name (hf : ∀ d : Class, (f d).name = d.name) (path : List String) (c : Class) :
    (c.alter f path).name = c.name := by
  cases path with
  | nil => exact hf c
  | cons key path => rfl

theorem alter_self (path : List String) (c : Class) : c.alter (fun d => d) path = c := by
  induction path generalizing c with
  | nil => rfl
  | cons key path ih =>
    have hsame : alter (fun d => d) path = fun d => d := funext ih
    rw [alter, hsame, Roster.change_self]
    cases c
    rfl

theorem at_alter (h : c.at? path = some d) (hf : ∀ d : Class, (f d).name = d.name) :
    (c.alter f path).at? path = some (f d) := by
  induction path generalizing c with
  | nil =>
    rw [← Option.some.inj h]
    rfl
  | cons key path ih =>
    obtain ⟨e, he, hd⟩ := Option.bind_eq_some_iff.mp h
    have hfind : (c.alter f (key :: path)).child? key = some (e.alter f path) :=
      Roster.find_change he (congrArg nameKey (alter_name hf path e))
    rw [at?, hfind, Option.bind_some, ih hd]

theorem at_append (c : Class) (path more : List String) :
    c.at? (path ++ more) = (c.at? path).bind fun d => d.at? more := by
  induction path generalizing c with
  | nil => rfl
  | cons key path ih =>
    rw [List.cons_append, at?, at?]
    cases c.child? key with
    | none => rfl
    | some e => exact ih e

/-- Only the class at the path matters to a change there. -/
theorem alter_congr (h : c.at? path = some d) (he : f d = g d) :
    c.alter f path = c.alter g path := by
  induction path generalizing c with
  | nil =>
    obtain rfl := Option.some.inj h
    exact he
  | cons key path ih =>
    obtain ⟨e, hc, hd⟩ := Option.bind_eq_some_iff.mp h
    rw [alter, alter, Roster.change_congr hc (ih hd)]

theorem alter_alter (hf : ∀ d : Class, (f d).name = d.name) (path : List String) (c : Class) :
    (c.alter f path).alter g path = c.alter (fun d => g (f d)) path := by
  induction path generalizing c with
  | nil => rfl
  | cons key path ih =>
    have hnames : ∀ e ∈ c.children, keyOf (e.alter f path) = keyOf e := fun e _ =>
      congrArg nameKey (alter_name hf path e)
    rw [alter, alter, alter]
    simp only [Roster.change_change hnames, ih]

theorem alter_append (f : Class → Class) (path more : List String) (c : Class) :
    c.alter f (path ++ more) = c.alter (alter f more) path := by
  induction path generalizing c with
  | nil => rfl
  | cons key path ih =>
    have hsame : alter f (path ++ more) = alter (alter f more) path := funext ih
    rw [List.cons_append, alter, alter, hsame]

/-- A change at a path is one of the child on the way, and of no other child. -/
theorem child_alter (hf : ∀ d : Class, (f d).name = d.name) (c : Class) (key : String)
    (path : List String) (k : String) :
    (c.alter f (key :: path)).child? k =
      if k = key then (c.child? k).map (alter f path) else c.child? k := by
  have hkeys : ∀ d ∈ c.children, keyOf (d.alter f path) = keyOf d := fun d _ =>
    congrArg nameKey (alter_name hf path d)
  rw [child?, alter]
  split_ifs with hk
  · subst hk
    exact Roster.find_change_self hkeys
  · exact Roster.find_change_of_ne hk hkeys

/-- A path to the changed class, or to one around it, ends where the change begins. -/
theorem at_alter_above (hf : ∀ d : Class, (f d).name = d.name) (path more : List String)
    (c : Class) : (c.alter f (path ++ more)).at? path = (c.at? path).map (alter f more) := by
  induction path generalizing c with
  | nil => rfl
  | cons key path ih =>
    rw [List.cons_append, at?, at?, child_alter hf, if_pos rfl]
    cases c.child? key with
    | none => rfl
    | some e => exact ih e

/-- A path through the changed class goes on in what it has become. -/
theorem at_alter_below (hf : ∀ d : Class, (f d).name = d.name) (path more : List String)
    (c : Class) : (c.alter f path).at? (path ++ more) =
      (c.at? path).bind fun d => (f d).at? more := by
  have hhere : (c.alter f path).at? path = (c.at? path).map f := by
    have habove := at_alter_above hf path [] c
    rwa [List.append_nil] at habove
  rw [at_append, hhere, Option.bind_map]
  rfl

/-- A path that leaves the one to the changed class shows what it showed before. -/
theorem at_alter_apart (hf : ∀ d : Class, (f d).name = d.name) {other : List String}
    (h : ¬path <+: other) (h' : ¬other <+: path) (c : Class) :
    (c.alter f path).at? other = c.at? other := by
  induction path generalizing c other with
  | nil => exact absurd List.nil_prefix h
  | cons key path ih =>
    cases other with
    | nil => exact absurd List.nil_prefix h'
    | cons k other =>
      rw [at?, at?, child_alter hf]
      split_ifs with hk
      · subst hk
        rw [List.cons_prefix_cons] at h h'
        have hrest (e : Class) : (e.alter f path).at? other = e.at? other :=
          ih (fun hp => h ⟨rfl, hp⟩) (fun hp => h' ⟨rfl, hp⟩) e
        cases c.child? k with
        | none => rfl
        | some e => exact hrest e
      · rfl

/-- Around a class there are classes. -/
theorem isSome_at_of_prefix {other : List String} (h : other <+: path) (hc : (c.at? path).isSome) :
    (c.at? other).isSome := by
  obtain ⟨more, rfl⟩ := h
  rw [at_append] at hc
  exact Option.isSome_of_isSome_bind hc

def extend (more : List Class) (level : Class) : Class :=
  { level with children := level.children ++ more }

theorem extend_nil : extend [] = fun level => level := by
  funext level
  cases level
  simp [extend]

theorem extend_extend (first more : List Class) :
    (fun level => extend more (extend first level)) = extend (first ++ more) := by
  funext level
  simp [extend]

theorem at_extended {level added : Class} (h : keyOf added ∉ Roster.keys level.children) :
    (extend [added] level).at? [keyOf added] = some added := by
  have hfound : (extend [added] level).child? (keyOf added) = some added := by
    rw [child?, extend, Roster.find_append h]
    simp [Roster.find?]
  rw [at?, hfound]
  rfl

theorem alter_extended {level added : Class} (f : Class → Class)
    (h : keyOf added ∉ Roster.keys level.children) :
    (extend [added] level).alter f [keyOf added] = extend [f added] level := by
  have hchanged : Roster.change (keyOf added) f (level.children ++ [added]) =
      level.children ++ [f added] := by
    rw [Roster.change_append h]
    simp [Roster.change]
  rw [alter]
  exact congrArg (fun children => Class.mk level.name level.base level.properties children) hchanged

/-- A class that is added at a level is found there, and can be changed further. -/
theorem at_alter_extended {level added : Class} {scope : List String}
    (hl : c.at? scope = some level) (h : keyOf added ∉ Roster.keys level.children) :
    (c.alter (extend [added]) scope).at? (scope ++ [keyOf added]) = some added := by
  have hlevel : (c.alter (extend [added]) scope).at? scope = some (extend [added] level) :=
    at_alter hl fun _ => rfl
  rw [at_append, hlevel]
  exact at_extended h

/-- A class that has been added can be changed afterwards or before. -/
theorem alter_alter_extended {level added : Class} {scope : List String}
    (hl : c.at? scope = some level) (h : keyOf added ∉ Roster.keys level.children)
    (f : Class → Class) :
    (c.alter (extend [added]) scope).alter f (scope ++ [keyOf added]) =
      c.alter (extend [f added]) scope := by
  have hnames (d : Class) : (extend [added] d).name = d.name := rfl
  rw [alter_append, alter_alter hnames]
  exact alter_congr hl (alter_extended f h)

end Overlay.Class
