import Overlay.Proofs.Fragment.Fold
import Overlay.Proofs.Tree
import Overlay.Proofs.Tree.Alter
import Overlay.Tree.Engine

namespace Overlay
open Attempt (bind_eq_ok pure_eq_ok)

namespace Roster

theorem names_prefix_enlist (known : List String) (name : String) :
    known <+: enlist known name := by
  rw [enlist]
  split_ifs
  · exact List.prefix_rfl
  · exact List.prefix_append known [name]

theorem names_prefix_foldl_enlist (known more : List String) :
    known <+: more.foldl enlist known := by
  induction more generalizing known with
  | nil => exact List.prefix_rfl
  | cons name more ih => exact (names_prefix_enlist known name).trans (ih _)

theorem names_change {α : Type} [Named α] {members : List α} {f : α → α} {key : String}
    (hf : ∀ a ∈ members, Named.name (f a) = Named.name a) :
    names (change key f members) = names members := by
  induction members with
  | nil => rfl
  | cons a as ih =>
    obtain ⟨ha, has⟩ := List.forall_mem_cons.mp hf
    rw [change]
    split_ifs
    · rw [names, List.map_cons, ha]
      rfl
    · rw [names, List.map_cons]
      exact congrArg _ (ih has)

end Roster

namespace Class

/-- A class under the same name, whose members are those of another one and possibly more behind
them, each under the name it has there. -/
structure Extends (d c : Class) : Prop where
  name : d.name = c.name
  properties : Roster.names c.properties <+: Roster.names d.properties
  children : Roster.names c.children <+: Roster.names d.children

/-- Whatever stands at a path below a class still stands there, extended at most. -/
def Grows (c d : Class) : Prop :=
  ∀ path e, c.at? path = some e → ∃ f, d.at? path = some f ∧ f.Extends e

variable {c d e : Class}

theorem Extends.refl (c : Class) : c.Extends c :=
  ⟨rfl, List.prefix_rfl, List.prefix_rfl⟩

theorem Extends.trans (h : d.Extends c) (h' : e.Extends d) : e.Extends c :=
  ⟨h'.name.trans h.name, h.properties.trans h'.properties, h.children.trans h'.children⟩

/-- The keys go with the names. -/
theorem Extends.keys (h : d.Extends c) :
    Roster.keys c.properties <+: Roster.keys d.properties ∧
      Roster.keys c.children <+: Roster.keys d.children := by
  simp only [Roster.keys_eq_names]
  exact ⟨h.properties.map nameKey, h.children.map nameKey⟩

theorem Grows.refl (c : Class) : c.Grows c := fun _ e he => ⟨e, he, .refl e⟩

theorem Grows.trans (h : c.Grows d) (h' : d.Grows e) : c.Grows e := by
  intro path x hx
  obtain ⟨y, hy, hxy⟩ := h path x hx
  obtain ⟨z, hz, hyz⟩ := h' path y hy
  exact ⟨z, hz, hxy.trans hyz⟩

theorem Grows.extends (h : c.Grows d) : d.Extends c := by
  obtain ⟨f, hf, hfc⟩ := h [] c rfl
  obtain rfl := Option.some.inj hf
  exact hfc

/-- A class grows if it is extended itself and each child grows under its key. -/
theorem grows_of_children (he : d.Extends c)
    (hc : ∀ key a, c.child? key = some a → ∃ b, d.child? key = some b ∧ a.Grows b) :
    c.Grows d := by
  intro path x hx
  cases path with
  | nil =>
    obtain rfl := Option.some.inj hx
    exact ⟨d, rfl, he⟩
  | cons key path =>
    obtain ⟨a, ha, hx⟩ := Option.bind_eq_some_iff.mp hx
    obtain ⟨b, hb, hab⟩ := hc key a ha
    obtain ⟨y, hy, hxy⟩ := hab path x hx
    exact ⟨y, by rw [at?, hb]; exact hy, hxy⟩

theorem children_takeOver (c : Class) (base : Option String) (ps : List Property) :
    (c.takeOver base ps).children = c.children := by
  rw [takeOver, foldl_assign]

theorem key_takeOver (c : Class) (base : Option String) (ps : List Property) :
    keyOf (c.takeOver base ps) = keyOf c :=
  congrArg nameKey (head_of_takeOver c base ps).1

theorem key_seeded_takeOver (name : String) (seed : Option Class) (base : Option String)
    (ps : List Property) : keyOf ((seeded name seed).takeOver base ps) = nameKey name :=
  (key_takeOver _ base ps).trans (congrArg nameKey (name_of_seeded name seed).1)

/-- Of the children only the one that bears the name of the body becomes another one. -/
theorem child_admitBody (level : Class) (name : String) (base : Option String)
    (seed : Option Class) (ps : List Property) (key : String) :
    (level.admitBody name base seed ps).child? key =
      if nameKey name = key then
        some (((level.child? key).getD (seeded name seed)).takeOver base ps)
      else level.child? key := by
  rw [child?, admitBody, Roster.find_absorb, key_seeded_takeOver, child?]
  · cases Roster.find? key level.children <;> rfl
  · exact fun c _ hk => (key_takeOver c base ps).trans hk

theorem grows_takeOver (c : Class) (base : Option String) (ps : List Property) :
    c.Grows (c.takeOver base ps) := by
  refine grows_of_children ⟨(head_of_takeOver c base ps).1, ?_, ?_⟩ ?_
  · rw [takeOver, names_foldl_assign]
    exact Roster.names_prefix_foldl_enlist _ _
  · exact children_takeOver c base ps ▸ List.prefix_rfl
  · intro key a ha
    exact ⟨a, by rwa [child?, children_takeOver], .refl a⟩

theorem grows_admitBody (level : Class) (name : String) (base : Option String)
    (seed : Option Class) (ps : List Property) :
    level.Grows (level.admitBody name base seed ps) := by
  have hname (c : Class) : (c.takeOver base ps).name = c.name := (head_of_takeOver c base ps).1
  refine grows_of_children ⟨rfl, List.prefix_rfl, ?_⟩ ?_
  · rw [admitBody, Roster.names_absorb hname]
    exact Roster.names_prefix_enlist _ _
  · intro key a ha
    rw [child_admitBody, ha]
    split_ifs
    · exact ⟨_, rfl, grows_takeOver a base ps⟩
    · exact ⟨a, rfl, .refl a⟩

/-- Where a class at a path grows, so does every class around it. -/
theorem grows_alter {f : Class → Class} (hf : ∀ c : Class, c.Grows (f c)) (path : List String)
    (c : Class) : c.Grows (c.alter f path) := by
  induction path generalizing c with
  | nil => exact hf c
  | cons key path ih =>
    have hname (d : Class) : (d.alter f path).name = d.name := (ih d).extends.name
    have hkeys : ∀ d ∈ c.children, keyOf (d.alter f path) = keyOf d :=
      fun d _ => congrArg nameKey (hname d)
    refine grows_of_children ⟨rfl, List.prefix_rfl, ?_⟩ ?_
    · have hnames : Roster.names (c.alter f (key :: path)).children = Roster.names c.children :=
        Roster.names_change fun d _ => hname d
      exact hnames ▸ List.prefix_rfl
    · intro k a ha
      by_cases hk : k = key
      · subst hk
        exact ⟨_, Roster.find_change ha (congrArg nameKey (hname a)), ih a⟩
      · exact ⟨a, (Roster.find_change_of_ne hk hkeys).trans ha, .refl a⟩

/-- Every member bears a name, and no two names have one key. Keys are not stored: they are computed
from the names of the members, so a member stands under a key if it is the one found by it. -/
structure Keyed (c : Class) : Prop where
  propertyNames : ∀ m ∈ c.properties, IsName m.name
  propertyKeys : (Roster.keys c.properties).Nodup
  property : ∀ key m, c.property? key = some m ↔ m ∈ c.properties ∧ nameKey m.name = key
  childNames : ∀ d ∈ c.children, IsName d.name ∧ ∀ b ∈ d.base, IsName b
  childKeys : (Roster.keys c.children).Nodup
  child : ∀ key d, c.child? key = some d ↔ d ∈ c.children ∧ nameKey d.name = key

theorem Ordered.keyed (h : c.Ordered) : c.Keyed where
  propertyNames := fun m hm => (h.properties m hm).name
  propertyKeys := h.propertyKeys
  property := fun _ _ => Roster.find_eq_some_iff h.propertyKeys
  childNames := fun d hd =>
    let ⟨hn, hb, _⟩ := proper_iff.mp (h.children d hd)
    ⟨hn, hb⟩
  childKeys := h.childKeys
  child := fun _ _ => Roster.find_eq_some_iff h.childKeys

/-- A property of the class is one of each class that extends it, in the same spelling. -/
theorem Extends.property {key : String} {m : Member} (h : d.Extends c) (hc : c.Keyed)
    (hd : d.Keyed) (hm : c.property? key = some m) :
    ∃ m', d.property? key = some m' ∧ m'.name = m.name := by
  obtain ⟨hmem, hkey⟩ := (hc.property key m).mp hm
  have hname : m.name ∈ Roster.names d.properties :=
    h.properties.subset (List.mem_map_of_mem hmem)
  obtain ⟨m', hm', heq⟩ := List.mem_map.mp hname
  have hname' : m'.name = m.name := heq
  exact ⟨m', (hd.property key m').mpr ⟨hm', hname' ▸ hkey⟩, hname'⟩

end Class

structure Heading.Proper (h : Heading) : Prop where
  name : IsName h.name
  base : ∀ b ∈ h.base, IsName b
  properties : ∀ p ∈ h.properties, p.Proper

namespace Declaration

theorem mem_headingsOfAll {scope : List String} {ds : List Declaration} {h : Heading} :
    h ∈ headingsOfAll scope ds ↔ ∃ d ∈ ds, h ∈ d.headings scope := by
  induction ds with
  | nil => simp [headingsOfAll]
  | cons d ds ih => rw [headingsOfAll, List.mem_append, ih, List.exists_mem_cons_iff]

theorem proper_headings {d : Declaration} (hd : d.Proper) :
    ∀ scope, ∀ h ∈ d.headings scope, h.Proper := by
  induction hd with
  | forward => simp [headings]
  | body hn hb hp _ _ _ ih =>
    intro scope h hm
    rw [headings, List.mem_cons] at hm
    rcases hm with rfl | hm
    · exact ⟨hn, hb, hp⟩
    · obtain ⟨child, hchild, hm⟩ := mem_headingsOfAll.mp hm
      exact ih child hchild _ h hm

end Declaration

namespace Tree

variable {t next : Tree}

/-- A tree grows by a body. -/
theorem grows_enter {scope : List String} {name : String} {base : Option String}
    {ps : List Property} (he : t.enter scope name base ps = .ok next) :
    t.root.Grows next.root := by
  obtain ⟨seed, _, he⟩ := bind_eq_ok.mp he
  rw [← pure_eq_ok.mp he]
  exact Class.grows_alter (fun level => Class.grows_admitBody level name base seed ps) scope t.root

/-- It grows by bodies in a row, also up to one that fails. -/
theorem grows_advance (t : Tree) (hs : List Heading) : t.root.Grows (t.advance hs).tree.root := by
  induction hs generalizing t with
  | nil => exact .refl _
  | cons h hs ih =>
    rw [advance]
    split
    · rename_i next he
      exact (grows_enter he).trans (ih next)
    · exact .refl _

theorem proper_advance {hs : List Heading} (ht : t.Proper) (hp : ∀ h ∈ hs, h.Proper) :
    (t.advance hs).tree.Proper := by
  induction hs generalizing t with
  | nil => exact ht
  | cons h hs ih =>
    obtain ⟨hfirst, hrest⟩ := List.forall_mem_cons.mp hp
    rw [advance]
    split
    · rename_i next he
      exact ih (proper_enter ht hfirst.name hfirst.base hfirst.properties he) hrest
    · exact ht

theorem proper_attempt {forest : Forest} (ht : t.Proper) (hf : Forest.Proper forest) :
    (t.attempt forest).tree.Proper := by
  apply proper_advance ht
  intro h hm
  obtain ⟨d, hd, hm⟩ := Declaration.mem_headingsOfAll.mp hm
  exact Declaration.proper_headings (hf.all d hd) [] h hm

theorem proper_attemptAll {forests : List Forest} (ht : t.Proper)
    (hf : ∀ f ∈ forests, Forest.Proper f) : (t.attemptAll forests).Proper := by
  induction forests generalizing t with
  | nil => exact ht
  | cons forest rest ih =>
    obtain ⟨hfirst, hrest⟩ := List.forall_mem_cons.mp hf
    exact ih (proper_attempt ht hfirst) hrest

/-- Where merging succeeds, it leads to the same tree as an attempt. -/
theorem eq_attempt_of_apply {source : String} {forest : Forest}
    (h : t.apply source forest = .ok next) : next = (t.attempt forest).tree := by
  rw [apply_eq_attempt, Advance.result] at h
  cases hfault : (t.attempt forest).fault with
  | some fault => simp [hfault, Except.mapError] at h
  | none =>
    simp only [hfault, Except.mapError, Except.ok.injEq] at h
    exact h.symm

/-- The root holds classes only, and at every path the members are under their keys. -/
structure Keyed (t : Tree) : Prop where
  root : t.root.properties = []
  level : ∀ path c, t.at? path = some c → c.Keyed

/-- In a proper tree no two members of a class have one key. -/
theorem Proper.keyed (h : t.Proper) : t.Keyed :=
  ⟨h.head.properties, fun _ _ hc => (Class.ordered_at h.root hc).keyed⟩

/-- Fragments are merged as far as they go, one after the other. Whether they fail or not, all
members stand under the keys of their names. Each further fragment leaves every class where it is,
with its name and its properties in their spellings, and with the keys it has in front of those that
are new. -/
theorem attempt_grows (forests : List Forest) (forest : Forest) (t next : Tree)
    (hs : ∀ f ∈ forests, ∃ text, Fragment.parse text = .ok f)
    (hf : ∃ text, Fragment.parse text = .ok forest) (ht : empty.attemptAll forests = t)
    (hn : (t.attempt forest).tree = next) :
    t.Keyed ∧ next.Keyed ∧ (∀ source fin, t.apply source forest = .ok fin → fin = next) ∧
      ∀ path c, t.at? path = some c → ∃ d, next.at? path = some d ∧ d.name = c.name ∧
        (∀ key m, c.property? key = some m →
          ∃ m', d.property? key = some m' ∧ m'.name = m.name) ∧
        Roster.keys c.properties <+: Roster.keys d.properties ∧
        Roster.keys c.children <+: Roster.keys d.children := by
  have hproper : ∀ f ∈ forests, Forest.Proper f := by
    intro f hf
    obtain ⟨text, hp⟩ := hs f hf
    exact Fragment.proper_of_parse hp
  obtain ⟨text, hp⟩ := hf
  have htree : t.Proper := ht ▸ proper_attemptAll proper_empty hproper
  have hnext : next.Proper := hn ▸ proper_attempt htree (Fragment.proper_of_parse hp)
  have hgrows : t.root.Grows next.root := hn ▸ grows_advance t _
  refine ⟨htree.keyed, hnext.keyed, ?_, ?_⟩
  · intro source fin ha
    exact (eq_attempt_of_apply ha).trans hn
  · intro path c hc
    obtain ⟨d, hd, he⟩ := hgrows path c hc
    obtain ⟨hproperties, hchildren⟩ := he.keys
    have hck := htree.keyed.level path c hc
    have hdk := hnext.keyed.level path d hd
    exact ⟨d, hd, he.name, fun _ _ hm => he.property hck hdk hm, hproperties, hchildren⟩

/-- The first class is in the tree by the time the second one fails. -/
theorem attempt_breaks : ∃ core, Fragment.parse "class A{};class B:Z{};" = .ok core ∧
    (empty.attempt core).fault = some ⟨["B"], "Z"⟩ := by
  have hfault : (match Fragment.parse "class A{};class B:Z{};" with
    | .ok core => decide ((empty.attempt core).fault = some ⟨["B"], "Z"⟩)
    | .error _ => false) = true := by decide +kernel
  split at hfault
  · rename_i core hcore
    exact ⟨core, hcore, of_decide_eq_true hfault⟩
  · exact absurd hfault Bool.false_ne_true

theorem attempt_grows_broken : ∃ core ext, Fragment.parse "class A{};class B:Z{};" = .ok core ∧
    Fragment.parse "class a{x=1;};" = .ok ext ∧
    (empty.attempt core).fault = some ⟨["B"], "Z"⟩ ∧
    (empty.attempt core).tree.Keyed ∧ ((empty.attempt core).tree.attempt ext).tree.Keyed ∧
    ∀ path c, (empty.attempt core).tree.at? path = some c →
      ∃ d, ((empty.attempt core).tree.attempt ext).tree.at? path = some d ∧ d.name = c.name := by
  obtain ⟨core, hcore, hfault⟩ := attempt_breaks
  obtain ⟨ext, hext⟩ : ∃ ext, Fragment.parse "class a{x=1;};" = .ok ext :=
    Attempt.isOk_iff.mp (by decide +kernel)
  obtain ⟨hkeyed, hkeyed', _, hkept⟩ :=
    attempt_grows [core] ext _ _ (List.forall_mem_singleton.mpr ⟨_, hcore⟩) ⟨_, hext⟩ rfl rfl
  refine ⟨core, ext, hcore, hext, hfault, hkeyed, hkeyed', ?_⟩
  intro path c hc
  obtain ⟨d, hd, hname, _⟩ := hkept path c hc
  exact ⟨d, hd, hname⟩

end Tree

end Overlay
