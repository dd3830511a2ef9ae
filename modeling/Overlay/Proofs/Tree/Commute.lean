import Overlay.Proofs.Tree.Declared
import Overlay.Proofs.Tree.Entering

/-! Two fragments without bases that have no property in common. Whichever of them is merged first,
in the end there are the same classes, each with the base that it had, and every property has been
settled by the one fragment that declares it. What does depend on the order of the two is where new
members stand and how a new name is spelled that is in both of them. -/
namespace Overlay
open Attempt (bind_eq_ok)

/-- No property is declared in both forests. -/
def Forest.Apart (f g : Forest) : Prop :=
  ∀ body ∈ Declaration.bodiesOfAll [] f, ∀ other ∈ Declaration.bodiesOfAll [] g,
    body.path = other.path →
      ∀ key ∈ Roster.keys body.properties, key ∉ Roster.keys other.properties

/-- The declarations of a property, found in the bodies of its class. -/
theorem mem_declarationsOf {bodies : List Body} {path : List String} {key : String}
    {p : Property} : p ∈ declarationsOf bodies path key ↔
      ∃ body ∈ bodies, body.path = path ∧ p ∈ body.properties ∧ keyOf p = key := by
  simp only [declarationsOf, List.mem_flatMap, List.mem_filter, decide_eq_true_eq, Roster.bearing,
    and_assoc]

/-- Of two such forests, one at most has declarations of a property. -/
theorem declarationsOf_apart {f g : Forest} (h : Forest.Apart f g) (path : List String)
    (key : String) : declarationsOf (Declaration.bodiesOfAll [] f) path key = [] ∨
      declarationsOf (Declaration.bodiesOfAll [] g) path key = [] := by
  by_contra hboth
  obtain ⟨hf, hg⟩ := not_or.mp hboth
  obtain ⟨p, hp⟩ := List.exists_mem_of_ne_nil _ hf
  obtain ⟨q, hq⟩ := List.exists_mem_of_ne_nil _ hg
  obtain ⟨body, hbody, hpath, hpm, hpk⟩ := mem_declarationsOf.mp hp
  obtain ⟨other, hother, hpath', hqm, hqk⟩ := mem_declarationsOf.mp hq
  have hkey : key ∈ Roster.keys body.properties := hpk ▸ List.mem_map_of_mem hpm
  exact h body hbody other hother (hpath.trans hpath'.symm) key hkey (hqk ▸ List.mem_map_of_mem hqm)

theorem declarationsOf_append (bodies more : List Body) (path : List String) (key : String) :
    declarationsOf (bodies ++ more) path key =
      declarationsOf bodies path key ++ declarationsOf more path key := by
  rw [declarationsOf, List.filter_append, List.flatMap_append]
  rfl

namespace Declaration

theorem base_of_mem_headings {d : Declaration} (hd : d.BaseFree) :
    ∀ scope, ∀ h ∈ d.headings scope, h.base = none := by
  induction hd with
  | forward => simp [headings]
  | body _ ih =>
    intro scope h hm
    rw [headings, List.mem_cons] at hm
    rcases hm with rfl | hm
    · rfl
    · obtain ⟨child, hchild, hm⟩ := mem_headingsOfAll.mp hm
      exact ih child hchild _ h hm

mutual

/-- A declaration names no base if none of its bodies does. -/
theorem baseFree_of_headings (scope : List String) :
    (d : Declaration) → (∀ h ∈ d.headings scope, h.base = none) → d.BaseFree
  | .forward _ _ => fun _ => .forward
  | .body name base properties children _ => by
    intro hb
    rw [headings, List.forall_mem_cons] at hb
    obtain ⟨rfl, hrest⟩ := hb
    exact .body (baseFree_of_headingsOfAll _ children hrest)

theorem baseFree_of_headingsOfAll (scope : List String) :
    (ds : List Declaration) → (∀ h ∈ headingsOfAll scope ds, h.base = none) →
      ∀ d ∈ ds, d.BaseFree
  | [] => fun _ => List.forall_mem_nil _
  | d :: ds => by
    intro hb
    rw [headingsOfAll, List.forall_mem_append] at hb
    exact List.forall_mem_cons.mpr
      ⟨baseFree_of_headings scope d hb.1, baseFree_of_headingsOfAll scope ds hb.2⟩

end

/-- Declarations are without bases exactly if no body in them names one. -/
theorem baseFree_iff {ds : List Declaration} :
    (∀ d ∈ ds, d.BaseFree) ↔ ∀ h ∈ headingsOfAll [] ds, h.base = none := by
  refine ⟨?_, baseFree_of_headingsOfAll [] ds⟩
  intro hds h hm
  obtain ⟨d, hd, hm⟩ := mem_headingsOfAll.mp hm
  exact base_of_mem_headings (hds d hd) [] h hm

end Declaration

namespace Class

variable {c d : Class}

/-- Classes with the same base and the same properties, whose children go by the same names, all of
it but for the order and the spelling. -/
structure Alike (c d : Class) : Prop where
  base : c.base = d.base
  properties : (Roster.keys c.properties).Perm (Roster.keys d.properties)
  values : ∀ key, c.value? key = d.value? key
  children : (Roster.keys c.children).Perm (Roster.keys d.children)

theorem mem_keys_properties {key : String} :
    key ∈ Roster.keys c.properties ↔ (c.value? key).isSome := by
  rw [value?, Option.isSome_map, property?, Option.isSome_iff_ne_none, ne_eq,
    Roster.find_eq_none_iff, not_not]

theorem mem_keys_children {key : String} :
    key ∈ Roster.keys c.children ↔ (c.child? key).isSome := by
  rw [child?, Option.isSome_iff_ne_none, ne_eq, Roster.find_eq_none_iff, not_not]

/-- In classes in order, what is found under each key is all that counts. -/
theorem alike_of_found (hc : c.Keyed) (hd : d.Keyed) (hb : c.base = d.base)
    (hv : ∀ key, c.value? key = d.value? key)
    (hk : ∀ key, (c.child? key).isSome = (d.child? key).isSome) : c.Alike d := by
  refine ⟨hb, ?_, hv, ?_⟩
  · refine (List.perm_ext_iff_of_nodup hc.propertyKeys hd.propertyKeys).mpr fun key => ?_
    rw [mem_keys_properties, mem_keys_properties, hv]
  · refine (List.perm_ext_iff_of_nodup hc.childKeys hd.childKeys).mpr fun key => ?_
    rw [mem_keys_children, mem_keys_children, hk]

end Class

namespace Tree

variable {t u mid next : Tree}

/-- Trees with classes at the same paths, where those at one path are alike. -/
structure Agrees (t u : Tree) : Prop where
  classes : ∀ path, (t.at? path).isSome = (u.at? path).isSome
  alike : ∀ path c d, t.at? path = some c → u.at? path = some d → c.Alike d

/-- A class in both trees has the same base in both, and a class that is new has none. -/
def KeepsBases (t next : Tree) : Prop :=
  ∀ path, (next.at? path).bind Class.base = (t.at? path).bind Class.base

theorem keepsBases_enter {h : Heading} (hs : (t.at? h.scope).isSome) (hb : h.base = none)
    (he : t.enter h.scope h.name h.base h.properties = .ok next) : t.KeepsBases next := by
  intro path
  by_cases hp : h.path = path
  · -- the class of the body, be it new or not
    subst hp
    obtain ⟨level, hl⟩ := Option.isSome_iff_exists.mp hs
    obtain ⟨seed, hseed, hself⟩ := at_enter_self hl he
    have hat : t.at? h.path = level.child? (nameKey h.name) := by
      rw [Heading.path, at?, Class.at_append, ← at?, hl, Option.bind_some, Class.at?]
      cases level.child? (nameKey h.name) <;> rfl
    have hnone : seed = none := by
      rw [hb] at hseed
      exact (Except.ok.inj hseed).symm
    rw [hself, hat, hb, hnone, Option.bind_some, (Class.head_of_takeOver _ _ _).2]
    cases level.child? (nameKey h.name) <;> rfl
  · cases hc : t.at? path with
    | some c =>
      obtain ⟨d, hd, hsame⟩ := sameHead_enter he hc hp
      rw [hd]
      exact hsame.base
    | none =>
      obtain ⟨next', he', hv⟩ := visits_enter hs h.name h.properties
      rw [hb, he'] at he
      obtain rfl := Except.ok.inj he
      have hnone : ¬(next'.at? path).isSome := by
        rw [hv.exists_at, hc]
        rintro (h | ⟨body, hm, hpath⟩)
        · exact Bool.false_ne_true h
        · obtain rfl := List.mem_singleton.mp hm
          exact hp hpath
      rw [Option.not_isSome_iff_eq_none.mp hnone]

theorem keepsBases_advance {known : List (List String)} {hs : List Heading}
    (hk : ∀ path ∈ known, (t.at? path).isSome) (hn : Heading.Nested known hs)
    (hb : ∀ h ∈ hs, h.base = none) (ha : (t.advance hs).result = .ok next) :
    t.KeepsBases next := by
  -- on the bodies that are left; each one finds its scope among the paths that are known by then
  induction hs generalizing t known with
  | nil =>
    obtain rfl := Except.ok.inj ha
    exact fun _ => rfl
  | cons h hs ih =>
    obtain ⟨hfirst, hrest⟩ := List.forall_mem_cons.mp hb
    obtain ⟨hscope, hnested⟩ := hn
    rw [result_advance_cons] at ha
    obtain ⟨mid, he, ha⟩ := bind_eq_ok.mp ha
    have hknown : ∀ path ∈ h.path :: known, (mid.at? path).isSome :=
      List.forall_mem_cons.mpr ⟨isSome_enter_self (hk _ hscope) he,
        fun path hm => isSome_of_grows (grows_enter he) (hk path hm)⟩
    intro path
    rw [ih hknown hnested hrest ha path]
    exact keepsBases_enter (hk _ hscope) hfirst he path

/-- A fragment without bases changes no base that is there, and gives none to a new class. -/
theorem keepsBases_apply {source : String} {forest : Forest} (hf : ∀ d ∈ forest, d.BaseFree)
    (ha : t.apply source forest = .ok next) : t.KeepsBases next := by
  have hroot : ∀ path ∈ [[]], (t.at? path).isSome := List.forall_mem_singleton.mpr rfl
  exact keepsBases_advance hroot (Declaration.nested_headingsOfAll [] forest)
    (Declaration.baseFree_iff.mp hf) (apply_eq_ok.mp ha)

/-- What becomes of a tree by merging fragments without bases. -/
theorem applyAll_keeps {fragments : List (String × Forest)} (ht : t.Proper)
    (hf : ∀ f ∈ fragments, Forest.Proper f.2) (hb : ∀ f ∈ fragments, ∀ d ∈ f.2, d.BaseFree)
    (ha : t.applyAll fragments = .ok next) :
    next.Proper ∧ t.KeepsBases next ∧ t.root.Grows next.root := by
  induction fragments generalizing t with
  | nil =>
    obtain rfl := Except.ok.inj ha
    exact ⟨ht, fun _ => rfl, .refl _⟩
  | cons fragment rest ih =>
    obtain ⟨source, forest⟩ := fragment
    obtain ⟨hproper, hfs⟩ := List.forall_mem_cons.mp hf
    obtain ⟨hfree, hbs⟩ := List.forall_mem_cons.mp hb
    obtain ⟨mid, hm, ha⟩ := bind_eq_ok.mp ha
    obtain ⟨hnext, hbases, hgrows⟩ := ih (proper_apply ht hproper hm) hfs hbs ha
    have hfirst : t.root.Grows mid.root := by
      rw [eq_attempt_of_apply hm]
      exact grows_advance t _
    exact ⟨hnext, fun path => (hbases path).trans (keepsBases_apply hfree hm path),
      hfirst.trans hgrows⟩

/-- Trees that show the same at every path, and have the same bases there, agree. -/
theorem agrees_of_look (ht : t.Keyed) (hu : u.Keyed)
    (hl : ∀ path key, t.root.look path key = u.root.look path key)
    (hb : ∀ path, (t.at? path).bind Class.base = (u.at? path).bind Class.base) : t.Agrees u := by
  -- whether there is a class can be seen from any key
  have hclasses (path : List String) : (t.at? path).isSome = (u.at? path).isSome := by
    have hlook := hl path ""
    rw [at?, at?, ← Class.isSome_look _ path "", ← Class.isSome_look _ path "", hlook]
  refine ⟨hclasses, ?_⟩
  intro path c d hc hd
  have hbase := hb path
  rw [hc, hd] at hbase
  apply Class.alike_of_found (ht.level path c hc) (hu.level path d hd) hbase
  · intro key
    have hlook := hl path key
    have hroot : t.root.at? path = some c := hc
    have hroot' : u.root.at? path = some d := hd
    rw [Class.look, Class.look, hroot, hroot', Option.map_some, Option.map_some] at hlook
    exact Option.some.inj hlook
  · intro key
    have hstep := hclasses (path ++ [key])
    -- a child is there exactly if there is a class one step further
    have hchild (v : Tree) (e : Class) (he : v.at? path = some e) :
        (v.at? (path ++ [key])).isSome = (e.child? key).isSome := by
      have hroot : v.root.at? path = some e := he
      rw [at?, Class.at_append, hroot, Option.bind_some, Class.at?]
      cases e.child? key <;> rfl
    rwa [hchild t c hc, hchild u d hd] at hstep

/-- Where forests are apart, bodies of the one and of the other can be visited in either order. -/
theorem look_apart {f g : Forest} (ha : Forest.Apart f g) (seen : Option (Option Value))
    (path : List String) (key : String) :
    (Declaration.bodiesOfAll [] f ++ Declaration.bodiesOfAll [] g).foldl
        (Class.visit path key) seen =
      (Declaration.bodiesOfAll [] g ++ Declaration.bodiesOfAll [] f).foldl
        (Class.visit path key) seen := by
  have hsome : ∀ a b : Option (Option Value), a.isSome = b.isSome → a.join = b.join → a = b := by
    rintro (_ | a) (_ | b) h h'
    · rfl
    · exact absurd h Bool.false_ne_true
    · exact absurd h.symm Bool.false_ne_true
    · exact congrArg some h'
  apply hsome
  · rw [Bool.eq_iff_iff, Class.isSome_foldl_visit, Class.isSome_foldl_visit]
    simp only [List.mem_append, or_comm]
  · rw [Class.join_foldl_visit, Class.join_foldl_visit, declarationsOf_append,
      declarationsOf_append]
    rcases declarationsOf_apart ha path key with h | h
    · rw [h, List.nil_append, List.append_nil]
    · rw [h, List.nil_append, List.append_nil]

/-- Two fragments without bases, with no property in common, can be merged in either order into any
tree that comes about by merging. The two results agree, and all that has been in the tree is in
both of them, under its name, in its place and with its base. -/
theorem apply_commutes (forests : List Forest) (t : Tree) (f g : Forest) (source source' : String)
    (hs : ∀ f ∈ forests, ∃ text, Fragment.parse text = .ok f)
    (ht : empty.attemptAll forests = t) (hf : ∃ text, Fragment.parse text = .ok f)
    (hg : ∃ text, Fragment.parse text = .ok g) (hfb : ∀ d ∈ f, d.BaseFree)
    (hgb : ∀ d ∈ g, d.BaseFree) (ha : Forest.Apart f g) :
    ∃ fg gf, t.applyAll [(source, f), (source', g)] = .ok fg ∧
      t.applyAll [(source', g), (source, f)] = .ok gf ∧ fg.Agrees gf ∧
      ∀ path c, t.at? path = some c → ∃ d e, fg.at? path = some d ∧ gf.at? path = some e ∧
        d.Extends c ∧ e.Extends c ∧ d.base = c.base ∧ e.base = c.base := by
  obtain ⟨_, hpf⟩ := hf
  obtain ⟨_, hpg⟩ := hg
  have hproperf := Fragment.proper_of_parse hpf
  have hproperg := Fragment.proper_of_parse hpg
  have htree : t.Proper := ht ▸ proper_attemptAll proper_empty fun f hm =>
    let ⟨_, hp⟩ := hs f hm
    Fragment.proper_of_parse hp
  -- the two fragments in either order
  have htwo {P : Forest → Prop} (hf : P f) (hg : P g) :
      (∀ x ∈ [(source, f), (source', g)], P x.2) ∧ ∀ x ∈ [(source', g), (source, f)], P x.2 := by
    simp only [List.forall_mem_cons, List.not_mem_nil, false_imp_iff, implies_true, and_true]
    exact ⟨⟨hf, hg⟩, hg, hf⟩
  obtain ⟨hproper, hproper'⟩ := htwo hproperf hproperg
  obtain ⟨hfree, hfree'⟩ := htwo (P := fun f => ∀ d ∈ f, d.BaseFree) hfb hgb
  obtain ⟨fg, hfg, hv⟩ := visits_applyAll _ hfree t
  obtain ⟨gf, hgf, hv'⟩ := visits_applyAll _ hfree' t
  obtain ⟨hkeyed, hbases, hgrows⟩ := applyAll_keeps htree hproper hfree hfg
  obtain ⟨hkeyed', hbases', hgrows'⟩ := applyAll_keeps htree hproper' hfree' hgf
  have hagrees : fg.Agrees gf := by
    apply agrees_of_look hkeyed.keyed hkeyed'.keyed
    · intro path key
      -- the bodies of both are visited in either order, and they have no property in common
      rw [hv path key, hv' path key]
      simp only [bodiesOf, List.flatMap_cons, List.flatMap_nil, List.append_nil]
      exact look_apart ha _ path key
    · exact fun path => (hbases path).trans (hbases' path).symm
  refine ⟨fg, gf, hfg, hgf, hagrees, ?_⟩
  intro path c hc
  obtain ⟨d, hd, hdc⟩ := hgrows path c hc
  obtain ⟨e, he, hec⟩ := hgrows' path c hc
  have hbase := hbases path
  have hbase' := hbases' path
  have hat : t.at? path = some c := hc
  have hat' : fg.at? path = some d := hd
  have hat'' : gf.at? path = some e := he
  rw [hat, hat'] at hbase
  rw [hat, hat''] at hbase'
  exact ⟨d, e, hd, he, hdc, hec, hbase, hbase'⟩

/-- Both fragments extend the class `A`, and both of them bring a class `N`, in two spellings. -/
theorem parse_shared : ∃ core f g, Fragment.parse "class A{x[]={1};};class B:A{};" = .ok core ∧
    Fragment.parse "class A{x[]+={2};class N{y=1;};};" = .ok f ∧
    Fragment.parse "class a{z=3;class n{w=4;};};" = .ok g ∧
    (∀ h ∈ Declaration.headingsOfAll [] f ++ Declaration.headingsOfAll [] g, h.base = none) ∧
    Declaration.bodiesOfAll [] f = [⟨["a"], [⟨"x", .array [.number "2"], true, ⟨8, 1, 9⟩⟩]⟩,
      ⟨["a", "n"], [⟨"y", .scalar (.number "1"), false, ⟨25, 1, 26⟩⟩]⟩] ∧
    Declaration.bodiesOfAll [] g = [⟨["a"], [⟨"z", .scalar (.number "3"), false, ⟨8, 1, 9⟩⟩]⟩,
      ⟨["a", "n"], [⟨"w", .scalar (.number "4"), false, ⟨20, 1, 21⟩⟩]⟩] :=
  Attempt.exists_oks (by decide +kernel)

theorem apply_commutes_shared : ∃ core f g fg gf,
    Fragment.parse "class A{x[]={1};};class B:A{};" = .ok core ∧
    Fragment.parse "class A{x[]+={2};class N{y=1;};};" = .ok f ∧
    Fragment.parse "class a{z=3;class n{w=4;};};" = .ok g ∧
    (∀ d ∈ f, d.BaseFree) ∧ (∀ d ∈ g, d.BaseFree) ∧ Forest.Apart f g ∧
    (empty.attempt core).tree.applyAll [("f.cpp", f), ("g.cpp", g)] = .ok fg ∧
    (empty.attempt core).tree.applyAll [("g.cpp", g), ("f.cpp", f)] = .ok gf ∧ fg.Agrees gf := by
  obtain ⟨core, f, g, hcore, hf, hg, hbases, hbf, hbg⟩ := parse_shared
  obtain ⟨hfb, hgb⟩ := List.forall_mem_append.mp hbases
  rw [← Declaration.baseFree_iff] at hfb hgb
  have hkeys : nameKey "x" = "x" ∧ nameKey "y" = "y" ∧ nameKey "z" = "z" ∧ nameKey "w" = "w" := by
    decide +kernel
  have hapart : Forest.Apart f g := by
    rw [Forest.Apart, hbf, hbg]
    simp [Roster.keys, keyOf, Named.name, hkeys]
  obtain ⟨fg, gf, hfg, hgf, hagrees, _⟩ := apply_commutes [core] _ f g "f.cpp" "g.cpp"
    (List.forall_mem_singleton.mpr ⟨_, hcore⟩) rfl ⟨_, hf⟩ ⟨_, hg⟩ hfb hgb hapart
  exact ⟨core, f, g, fg, gf, hcore, hf, hg, hfb, hgb, hapart, hfg, hgf, hagrees⟩

end Tree

end Overlay
