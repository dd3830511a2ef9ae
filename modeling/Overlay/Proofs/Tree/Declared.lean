import Overlay.Proofs.Tree
import Overlay.Proofs.Tree.Alter
import Overlay.Proofs.Tree.Values
import Overlay.Tree.Query

namespace Overlay

inductive Declaration.BaseFree : Declaration → Prop
  | forward {name : String} {position : Text.Position} : BaseFree (.forward name position)
  | body {name : String} {properties : List Property} {children : List Declaration}
      {position : Text.Position} (hc : ∀ d ∈ children, BaseFree d) :
      BaseFree (.body name none properties children position)

/-- The properties that a body declares, with the path of its class. -/
structure Body where
  path : List String
  properties : List Property
  deriving DecidableEq

namespace Declaration

mutual

def bodies (scope : List String) : Declaration → List Body
  | .forward _ _ => []
  | .body name _ properties children _ =>
    ⟨scope ++ [nameKey name], properties⟩ :: bodiesOfAll (scope ++ [nameKey name]) children

def bodiesOfAll (scope : List String) : List Declaration → List Body
  | [] => []
  | d :: ds => bodies scope d ++ bodiesOfAll scope ds

end

end Declaration

def bodiesOf (fragments : List (String × Forest)) : List Body :=
  fragments.flatMap fun f => Declaration.bodiesOfAll [] f.2

/-- The declarations of a property among those in bodies of the class at a path. -/
def declarationsOf (bodies : List Body) (path : List String) (key : String) : List Property :=
  (bodies.filter fun body => body.path = path).flatMap fun body =>
    Roster.bearing key body.properties

namespace Class

variable {c level : Class} {path scope : List String} {key : String}

/-- What a class shows at a path: whether there is a class, and which value its property has. -/
def look (c : Class) (path : List String) (key : String) : Option (Option Value) :=
  (c.at? path).map fun d => d.value? key

theorem look_cons (c : Class) (head : String) (path : List String) (key : String) :
    c.look (head :: path) key = (c.child? head).bind fun d => d.look path key := by
  rw [look, at?]
  cases c.child? head <;> rfl

theorem isSome_look (c : Class) (path : List String) (key : String) :
    (c.look path key).isSome = (c.at? path).isSome := Option.isSome_map

def visit (path : List String) (key : String) (seen : Option (Option Value)) (body : Body) :
    Option (Option Value) :=
  if body.path = path then some (Property.settled seen.join (Roster.bearing key body.properties))
  else seen

/-- A class is there if it was there before or has a body. -/
theorem isSome_foldl_visit (bodies : List Body) (seen : Option (Option Value)) :
    (bodies.foldl (visit path key) seen).isSome ↔
      seen.isSome ∨ ∃ body ∈ bodies, body.path = path := by
  induction bodies generalizing seen with
  | nil => simp
  | cons body rest ih =>
    rw [List.foldl_cons, ih, visit]
    split_ifs with hp
    · simp [hp]
    · simp [hp]

/-- A value is settled by the declarations in the bodies. -/
theorem join_foldl_visit (bodies : List Body) (seen : Option (Option Value)) :
    (bodies.foldl (visit path key) seen).join =
      Property.settled seen.join (declarationsOf bodies path key) := by
  induction bodies generalizing seen with
  | nil => rfl
  | cons body rest ih =>
    rw [List.foldl_cons, ih, visit, declarationsOf, declarationsOf]
    split_ifs with hp
    · rw [List.filter_cons_of_pos (by simpa using hp), List.flatMap_cons,
        Property.settled_append]
      rfl
    · rw [List.filter_cons_of_neg (by simpa using hp)]

theorem visit_cons (head : String) (path rest : List String) (key : String)
    (seen : Option (Option Value)) (ps : List Property) :
    visit (head :: path) key seen ⟨head :: rest, ps⟩ = visit path key seen ⟨rest, ps⟩ := by
  simp only [visit, List.cons.injEq, true_and]

theorem visit_elsewhere {body : Body} (h : body.path ≠ path) (key : String)
    (seen : Option (Option Value)) : visit path key seen body = seen := if_neg h

theorem look_takeOver (c : Class) (base : Option String) (ps : List Property) (path : List String)
    (key : String) :
    (c.takeOver base ps).look path key = visit path key (c.look path key) ⟨[], ps⟩ := by
  cases path with
  | nil =>
    rw [visit, if_pos rfl, look, at?, takeOver, Option.map_some, value_foldl_assign]
    rfl
  | cons head path =>
    rw [visit_elsewhere (List.cons_ne_nil _ _).symm, look_cons, look_cons, child?, takeOver,
      foldl_assign]
    rfl

/-- A body that is admitted shows in the class of its name, new or not. -/
theorem look_admitBody (level : Class) (name : String) (ps : List Property) (path : List String)
    (key : String) :
    (level.admitBody name none none ps).look path key =
      visit path key (level.look path key) ⟨[nameKey name], ps⟩ := by
  have hname (c : Class) : keyOf (c.takeOver none ps) = keyOf c :=
    congrArg nameKey (head_of_takeOver c none ps).1
  cases path with
  | nil =>
    rw [visit_elsewhere (List.cons_ne_nil _ _)]
    rfl
  | cons head path =>
    -- only the child of that name is another one
    have hchild : (level.admitBody name none none ps).child? head =
        if nameKey name = head then some ((level.child? head).elim
          ((empty name).takeOver none ps) fun c => c.takeOver none ps)
        else level.child? head := by
      rw [child?, admitBody, Roster.find_absorb (fun c _ hk => (hname c).trans hk), hname]
      rfl
    rw [look_cons, look_cons, hchild]
    split_ifs with hk
    · subst hk
      rw [visit_cons, Option.bind_some]
      cases level.child? (nameKey name) with
      | some c => exact look_takeOver c none ps path key
      | none =>
        rw [Option.elim_none, look_takeOver]
        cases path <;> rfl
    · rw [visit_elsewhere fun h => hk (List.cons.inj h).1]

theorem look_alter {f : Class → Class} {k : String} {ps : List Property}
    (hl : c.at? scope = some level) (hn : ∀ d : Class, (f d).name = d.name)
    (hf : ∀ path, (f level).look path key = visit path key (level.look path key) ⟨[k], ps⟩)
    (path : List String) :
    (c.alter f scope).look path key = visit path key (c.look path key) ⟨scope ++ [k], ps⟩ := by
  -- on the scope, which the path follows or leaves at its first name
  induction scope generalizing c path with
  | nil =>
    obtain rfl := Option.some.inj hl
    exact hf path
  | cons s scope ih =>
    obtain ⟨e, he, hl⟩ := Option.bind_eq_some_iff.mp hl
    have hkeys : ∀ d : Class, keyOf (d.alter f scope) = keyOf d := fun d =>
      congrArg nameKey (alter_name hn scope d)
    cases path with
    | nil =>
      rw [visit_elsewhere (List.cons_ne_nil _ _)]
      rfl
    | cons head path =>
      rw [look_cons, look_cons, List.cons_append]
      by_cases hs : s = head
      · subst hs
        have hchild : (c.alter f (s :: scope)).child? s = some (e.alter f scope) :=
          Roster.find_change he (hkeys e)
        rw [hchild, he, visit_cons]
        exact ih hl path
      · have hchild : (c.alter f (s :: scope)).child? head = c.child? head :=
          Roster.find_change_of_ne (Ne.symm hs) fun d _ => hkeys d
        rw [hchild, visit_elsewhere fun h => hs (List.cons.inj h).1]

end Class

namespace Tree

/-- One tree shows what another does, and what some further bodies declare. -/
def Visits (t next : Tree) (bodies : List Body) : Prop :=
  ∀ path key, next.root.look path key = bodies.foldl (Class.visit path key) (t.root.look path key)

variable {t mid next : Tree} {scope : List String} {bodies more : List Body}

theorem Visits.trans (h : Visits t mid bodies) (h' : Visits mid next more) :
    Visits t next (bodies ++ more) := by
  intro path key
  rw [List.foldl_append, ← h path key, h' path key]

theorem Visits.exists_at (h : Visits t next bodies) (path : List String) :
    (next.at? path).isSome ↔ (t.at? path).isSome ∨ ∃ body ∈ bodies, body.path = path := by
  have hlook := h path ""
  rw [at?, at?, ← Class.isSome_look _ path "", ← Class.isSome_look _ path "", hlook]
  exact Class.isSome_foldl_visit bodies _

/-- Where the scope is there, a body without a base can be entered, and shows. -/
theorem visits_enter (hs : (t.at? scope).isSome) (name : String) (ps : List Property) :
    ∃ next, t.enter scope name none ps = .ok next ∧
      Visits t next [⟨scope ++ [nameKey name], ps⟩] := by
  obtain ⟨level, hl⟩ := Option.isSome_iff_exists.mp hs
  refine ⟨_, rfl, ?_⟩
  intro path key
  have hname (d : Class) : (d.admitBody name none none ps).name = d.name := rfl
  exact Class.look_alter hl hname (fun path => Class.look_admitBody level name ps path key) path

theorem visits_declareAll_of {ds : List Declaration} (hs : (t.at? scope).isSome)
    (hd : ∀ d ∈ ds, ∀ t : Tree, (t.at? scope).isSome →
      ∃ next, t.declare scope d = .ok next ∧ Visits t next (d.bodies scope)) :
    ∃ next, t.declareAll scope ds = .ok next ∧
      Visits t next (Declaration.bodiesOfAll scope ds) := by
  induction ds generalizing t with
  | nil => exact ⟨t, by rw [declareAll], fun _ _ => by rw [Declaration.bodiesOfAll, List.foldl_nil]⟩
  | cons d ds ih =>
    obtain ⟨hfirst, hrest⟩ := List.forall_mem_cons.mp hd
    obtain ⟨mid, hm, hv⟩ := hfirst t hs
    -- what has been there is still there
    have hsm : (mid.at? scope).isSome := (hv.exists_at scope).mpr (.inl hs)
    obtain ⟨next, hn, hv'⟩ := ih hsm hrest
    refine ⟨next, ?_, ?_⟩
    · rw [declareAll, hm]
      exact hn
    · rw [Declaration.bodiesOfAll]
      exact hv.trans hv'

theorem visits_declare {d : Declaration} (h : d.BaseFree) (hs : (t.at? scope).isSome) :
    ∃ next, t.declare scope d = .ok next ∧ Visits t next (d.bodies scope) := by
  induction h generalizing t scope with
  | forward => exact ⟨t, by rw [declare], fun _ _ => by rw [Declaration.bodies, List.foldl_nil]⟩
  | @body name ps children _ _ ih =>
    obtain ⟨mid, hm, hv⟩ := visits_enter hs name ps
    -- the children stand in the class that the body is of
    have hsm : (mid.at? (scope ++ [nameKey name])).isSome :=
      (hv.exists_at _).mpr (.inr ⟨_, List.mem_singleton_self _, rfl⟩)
    obtain ⟨next, hn, hv'⟩ := visits_declareAll_of hsm fun d hd t ht => ih d hd ht
    refine ⟨next, ?_, ?_⟩
    · rw [declare, hm]
      exact hn
    · rw [Declaration.bodies]
      exact hv.trans hv'

/-- Without bases no merging fails, and a tree shows what the bodies declare. -/
theorem visits_applyAll (fragments : List (String × Forest))
    (h : ∀ f ∈ fragments, ∀ d ∈ f.2, d.BaseFree) (t : Tree) :
    ∃ next, t.applyAll fragments = .ok next ∧ Visits t next (bodiesOf fragments) := by
  induction fragments generalizing t with
  | nil => exact ⟨t, rfl, fun _ _ => rfl⟩
  | cons fragment rest ih =>
    obtain ⟨source, forest⟩ := fragment
    obtain ⟨hfirst, hrest⟩ := List.forall_mem_cons.mp h
    have hroot (t : Tree) : (t.at? []).isSome := rfl
    obtain ⟨mid, hm, hv⟩ := visits_declareAll_of (hroot t) fun d hd t ht =>
      visits_declare (hfirst d hd) ht
    obtain ⟨next, hn, hv'⟩ := ih hrest mid
    refine ⟨next, ?_, ?_⟩
    · rw [applyAll, apply, hm]
      exact hn
    · rw [bodiesOf, List.flatMap_cons]
      exact hv.trans hv'

theorem entryAt_snoc (c : Class) (path : List String) (key : String) :
    entryAt? c (path ++ [key]) = (c.at? path).bind fun d => entry? d key := by
  induction path generalizing c with
  | nil => rfl
  | cons head path ih =>
    have hstep : entryAt? c (head :: (path ++ [key])) =
        (c.child? head).bind fun d => entryAt? d (path ++ [key]) := by
      cases path <;> rfl
    rw [List.cons_append, hstep, Class.at?]
    cases c.child? head with
    | none => rfl
    | some d => exact ih d

/-- The value at a path is that of the property, also where there is a class of that name. -/
theorem get_eq_look {path name : String} {names : List String} (t : Tree)
    (hp : segments path = .ok (names ++ [name])) :
    t.get path = orNotFound path (t.root.look (names.map nameKey) (nameKey name)).join := by
  have hlookup : t.lookup path =
      orNotFound path (entryAt? t.root ((names ++ [name]).map nameKey)) := by
    rw [lookup, hp]
    rfl
  rw [get, hlookup, List.map_append, List.map_singleton, entryAt_snoc, Class.look]
  cases t.root.at? (names.map nameKey) with
  | none => rfl
  | some c =>
    rw [Option.bind_some, Option.map_some, entry?, Class.value?]
    cases c.property? (nameKey name) with
    | some m => rfl
    | none => cases c.child? (nameKey name) <;> rfl

theorem orNotFound_eq_ok {α : Type} {path : String} {answer : Option α} {a : α} :
    orNotFound path answer = .ok a ↔ answer = some a := by
  cases answer <;> simp [orNotFound]

theorem orNotFound_eq_error {α : Type} {path : String} {answer : Option α} :
    orNotFound path answer = .error (.notFound path) ↔ answer = none := by
  cases answer <;> simp [orNotFound]

theorem segments_ne_nil {path : String} {names : List String} (hp : segments path = .ok names) :
    names ≠ [] := by
  simp only [segments] at hp
  split_ifs at hp
  rw [← Except.ok.inj hp]
  simp [Text.splitOn_ne_nil]

/-- A class is found at a path exactly if it is in the tree. -/
theorem exists_classAt {path : String} {names : List String} (t : Tree)
    (hp : segments path = .ok names) :
    (∃ c, t.classAt path = .ok c) ↔ (t.at? (names.map nameKey)).isSome := by
  have hclass : t.classAt path = orNotFound path (t.at? (names.map nameKey)) := by
    rw [classAt, hp]
    rfl
  rw [hclass, Option.isSome_iff_exists]
  exact exists_congr fun _ => orNotFound_eq_ok

/-- What fragments without bases merge to. They always merge. At each path the value is that of the
declarations for it, one after the other, and there is none if there are no declarations; a class is
exactly where there is a body. -/
theorem merge_declared (fragments : List (String × Forest))
    (h : ∀ f ∈ fragments, ∀ d ∈ f.2, d.BaseFree) :
    ∃ t, merge fragments = .ok t ∧
      (∀ path names name, segments path = .ok (names ++ [name]) →
        t.get path = orNotFound path (Property.settled none
          (declarationsOf (bodiesOf fragments) (names.map nameKey) (nameKey name))) ∧
        (t.get path = .error (.notFound path) ↔
          declarationsOf (bodiesOf fragments) (names.map nameKey) (nameKey name) = [])) ∧
      ∀ path names, segments path = .ok names →
        ((∃ c, t.classAt path = .ok c) ↔
          ∃ body ∈ bodiesOf fragments, body.path = names.map nameKey) := by
  obtain ⟨t, hm, hv⟩ := visits_applyAll fragments h empty
  refine ⟨t, hm, ?_, ?_⟩
  · intro path names name hp
    have hempty : (empty.root.look (names.map nameKey) (nameKey name)).join = none := by
      cases names <;> rfl
    have hget := get_eq_look t hp
    rw [hv, Class.join_foldl_visit, hempty] at hget
    refine ⟨hget, ?_⟩
    rw [hget, orNotFound_eq_error, Property.settled_eq_none]
    exact and_iff_right rfl
  · intro path names hp
    have hempty : (empty.at? (names.map nameKey)).isSome = false := by
      obtain ⟨name, rest, rfl⟩ := List.exists_cons_of_ne_nil (segments_ne_nil hp)
      rfl
    rw [exists_classAt t hp, hv.exists_at, hempty]
    exact or_iff_right Bool.false_ne_true

-- `class A { x[] = {1}; class B { y = 1; }; class C; };`
def coreForest : Forest :=
  [.body "A" none [⟨"x", .array [.number "1"], false, .start⟩]
    [.body "B" none [⟨"y", .scalar (.number "1"), false, .start⟩] [] .start,
      .forward "C" .start] .start]

-- `class a { X[] += {2}; class b { y[] += {3}; }; };`
def extForest : Forest :=
  [.body "a" none [⟨"X", .array [.number "2"], true, .start⟩]
    [.body "b" none [⟨"y", .array [.number "3"], true, .start⟩] [] .start] .start]

def layered : List (String × Forest) := [("core.cpp", coreForest), ("ext.cpp", extForest)]

theorem keys_layered :
    nameKey "A" = "a" ∧ nameKey "a" = "a" ∧ nameKey "B" = "b" ∧ nameKey "b" = "b" ∧
      nameKey "C" = "c" ∧ nameKey "x" = "x" ∧ nameKey "X" = "x" ∧ nameKey "y" = "y" := by
  decide +kernel

theorem bodiesOf_layered : bodiesOf layered =
    [⟨["a"], [⟨"x", .array [.number "1"], false, .start⟩]⟩,
      ⟨["a", "b"], [⟨"y", .scalar (.number "1"), false, .start⟩]⟩,
      ⟨["a"], [⟨"X", .array [.number "2"], true, .start⟩]⟩,
      ⟨["a", "b"], [⟨"y", .array [.number "3"], true, .start⟩]⟩] := by
  simp [bodiesOf, layered, coreForest, extForest, Declaration.bodiesOfAll, Declaration.bodies,
    keys_layered]

theorem merge_declared_layered :
    (∀ f ∈ layered, ∀ d ∈ f.2, d.BaseFree) ∧
      ∃ t, merge layered = .ok t ∧
        t.get "A.X" = .ok (.array [.number "1", .number "2"]) ∧
        t.get "A.B.y" = .ok (.array [.number "3"]) ∧
        t.get "A.B" = .error (.notFound "A.B") ∧
        (∃ c, t.classAt "A.B" = .ok c) ∧ ¬∃ c, t.classAt "A.C" = .ok c := by
  have hcore : ∀ d ∈ coreForest, d.BaseFree :=
    List.forall_mem_singleton.mpr (.body (List.forall_mem_cons.mpr
      ⟨.body (List.forall_mem_nil _), List.forall_mem_singleton.mpr .forward⟩))
  have hext : ∀ d ∈ extForest, d.BaseFree :=
    List.forall_mem_singleton.mpr (.body (List.forall_mem_singleton.mpr
      (.body (List.forall_mem_nil _))))
  have hfree : ∀ f ∈ layered, ∀ d ∈ f.2, d.BaseFree := by
    rw [layered, List.forall_mem_cons, List.forall_mem_singleton]
    exact ⟨hcore, hext⟩
  obtain ⟨t, hm, hget, hclass⟩ := merge_declared layered hfree
  refine ⟨hfree, t, hm, ?_, ?_, ?_, ?_, ?_⟩
  · refine (hget "A.X" ["A"] "X" (by decide +kernel)).1.trans (orNotFound_eq_ok.mpr ?_)
    simp [bodiesOf_layered, declarationsOf, Roster.bearing, keyOf, Named.name, keys_layered,
      Property.settled, Property.after]
  · refine (hget "A.B.y" ["A", "B"] "y" (by decide +kernel)).1.trans (orNotFound_eq_ok.mpr ?_)
    simp [bodiesOf_layered, declarationsOf, Roster.bearing, keyOf, Named.name, keys_layered,
      Property.settled, Property.after]
  · refine (hget "A.B" ["A"] "B" (by decide +kernel)).2.mpr ?_
    simp [bodiesOf_layered, declarationsOf, Roster.bearing, keyOf, Named.name, keys_layered]
  · refine (hclass "A.B" ["A", "B"] (by decide +kernel)).mpr ?_
    simp [bodiesOf_layered, keys_layered]
  · rw [hclass "A.C" ["A", "C"] (by decide +kernel)]
    simp [bodiesOf_layered, keys_layered]

end Tree

end Overlay
