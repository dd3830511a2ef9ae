import Mathlib
import Overlay.Proofs.Tree.Entering

/-! What becomes of a class that is declared with a base where it does not exist yet. The base is
the innermost class of its name around the declaration. The new class starts as a copy of it, takes
over its own properties, and has the children of the base but for those that it declares itself. It
is put behind the other classes at its level, and nothing else in the tree changes. -/
namespace Overlay
open Attempt (bind_eq_ok)

namespace Roster

/-- Names that are enlisted stand behind those that are there, in their order. -/
theorem exists_foldl_enlist (known more : List String) :
    ∃ new, more.foldl enlist known = known ++ new ∧ new.Sublist more ∧
      ∀ name ∈ new, nameKey name ∉ known.map nameKey := by
  induction more generalizing known with
  | nil => exact ⟨[], by simp, .slnil, by simp⟩
  | cons name more ih =>
    rw [List.foldl_cons, enlist]
    split_ifs with hk
    · obtain ⟨new, heq, hsub, hnew⟩ := ih known
      exact ⟨new, heq, hsub.cons name, hnew⟩
    · obtain ⟨new, heq, hsub, hnew⟩ := ih (known ++ [name])
      refine ⟨name :: new, ?_, hsub.cons_cons name, List.forall_mem_cons.mpr ⟨hk, ?_⟩⟩
      · rw [heq, List.append_assoc]
        rfl
      · intro other hm hin
        refine hnew other hm ?_
        rw [List.map_append]
        exact List.mem_append_left _ hin

end Roster

namespace Class

variable {level : Class} {name : String}

/-- A class that has been made of another one by a body. It records the base that the body names,
its values are those of the other class with what the body declares on top, and its properties are
in the order of that class, with the new ones behind them. Where the body has no child of its own,
the child is that of the other class. -/
structure Inherits (made source : Class) (h : Heading) (children : List Declaration) : Prop where
  name : made.name = h.name
  base : made.base = h.base
  value : ∀ key, made.value? key =
    Property.settled (source.value? key) (Roster.bearing key h.properties)
  propertyNames : ∃ new, Roster.names made.properties = Roster.names source.properties ++ new ∧
    new.Sublist (Roster.names h.properties) ∧
    ∀ name ∈ new, nameKey name ∉ Roster.keys source.properties
  childNames : Roster.names source.children <+: Roster.names made.children
  child : ∀ key, (∀ d ∈ children, keyOf d = key → d.isForward = true) →
    made.child? key = source.child? key

theorem admitBody_of_new (hn : level.child? (nameKey name) = none) (base : Option String)
    (seed : Option Class) (ps : List Property) :
    level.admitBody name base seed ps = extend [(seeded name seed).takeOver base ps] level := by
  have hnew : keyOf ((seeded name seed).takeOver base ps) ∉ Roster.keys level.children := by
    rw [key_seeded_takeOver]
    exact Roster.find_eq_none_iff.mp hn
  rw [admitBody, Roster.absorb_of_new hnew]
  rfl

/-- The copy of a class inherits from it as soon as it has taken over the head of the body, and
keeps on doing so while its children are declared. -/
theorem inherits_of_seeded {made source : Class} {h : Heading} {children : List Declaration}
    (hbase : h.base.isSome)
    (hs : made.SameHead ((seeded h.name (some source)).takeOver h.base h.properties))
    (he : made.Extends ((seeded h.name (some source)).takeOver h.base h.properties))
    (hc : ∀ key, (∀ d ∈ children, keyOf d = key → d.isForward = true) →
      made.child? key =
        ((seeded h.name (some source)).takeOver h.base h.properties).child? key) :
    made.Inherits source h children := by
  have hchildren := children_takeOver (seeded h.name (some source)) h.base h.properties
  refine ⟨?_, ?_, ?_, ?_, ?_, ?_⟩
  · rw [hs.name, (head_of_takeOver _ _ _).1]
    rfl
  · obtain ⟨base, hbase⟩ := Option.isSome_iff_exists.mp hbase
    rw [hs.base, (head_of_takeOver _ _ _).2, hbase]
    rfl
  · intro key
    rw [hs.value, value_takeOver]
    rfl
  -- the names that are declared come behind those that are inherited
  · obtain ⟨new, hnames, hsub, hnew⟩ :=
      Roster.exists_foldl_enlist (Roster.names source.properties) (Roster.names h.properties)
    refine ⟨new, ?_, hsub, ?_⟩
    · rw [hs.properties, takeOver, names_foldl_assign]
      exact hnames
    · rwa [Roster.keys_eq_names]
  · have hprefix := he.children
    rwa [hchildren] at hprefix
  · intro key hkey
    rw [hc key hkey, child?, hchildren]
    rfl

end Class

namespace Tree

variable {t next : Tree} {scope outer inner : List String} {self base : String} {c : Class}

/-- The levels around a scope are those that its path begins with. -/
theorem mem_levels : outer ∈ levels scope ↔ outer <+: scope := by
  simp only [levels, List.mem_map, List.mem_reverse, List.mem_range]
  constructor
  · rintro ⟨n, _, rfl⟩
    exact List.take_prefix n scope
  · intro hp
    exact ⟨outer.length, Nat.lt_succ_of_le hp.length_le, (List.prefix_iff_eq_take.mp hp).symm⟩

/-- Inner levels come first. -/
theorem levels_pairwise (scope : List String) :
    (levels scope).Pairwise fun inner outer => outer.length < inner.length := by
  rw [levels, List.pairwise_map, List.pairwise_reverse]
  apply List.pairwise_lt_range.imp_of_mem
  intro n m _ hm hlt
  rw [List.mem_range] at hm
  rw [List.length_take, List.length_take]
  omega

theorem at_snoc (t : Tree) (path : List String) (key : String) :
    t.at? (path ++ [key]) = (t.at? path).bind fun level => level.child? key := by
  rw [at?, Class.at_append, at?]
  cases t.root.at? path with
  | none => rfl
  | some level => exact Option.bind_fun_some (level.child? key)

/-- A level at which a base may be found: it is the scope of the declaration or around it, and at
the scope the base has another name than the class itself. -/
def Visible (scope : List String) (self base : String) (level : List String) : Prop :=
  level <+: scope ∧ (level = scope → base ≠ self)

/-- The base is found at the innermost level that has a class of that name. -/
theorem base_innermost (hb : t.base? scope self base = some c) :
    ∃ outer, Visible scope self base outer ∧ t.at? (outer ++ [base]) = some c ∧
      ∀ inner, Visible scope self base inner → outer.length < inner.length →
        t.at? (inner ++ [base]) = none := by
  obtain ⟨before, outer, after, heq, hfound, hbefore⟩ := List.findSome?_eq_some_iff.mp hb
  have hmem : outer ∈ levels scope := heq ▸ List.mem_append_right _ List.mem_cons_self
  split_ifs at hfound with hself
  have hv : Visible scope self base outer := ⟨mem_levels.mp hmem, fun ho hs => hself ⟨ho, hs⟩⟩
  refine ⟨outer, hv, (at_snoc t outer base).trans hfound, ?_⟩
  intro inner hv hlt
  have hin : inner ∈ before := by
    have hpairs := levels_pairwise scope
    have hinner : inner ∈ levels scope := mem_levels.mpr hv.1
    rw [heq] at hpairs hinner
    rcases List.mem_append.mp hinner with hin | hin
    · exact hin
    · have hshort : inner.length ≤ outer.length := by
        rcases List.mem_cons.mp hin with rfl | hin
        · exact Nat.le_refl _
        · exact ((List.pairwise_cons.mp (List.pairwise_append.mp hpairs).2.1).1 inner hin).le
      omega
  have hnone := hbefore inner hin
  rw [if_neg fun h => hv.2 h.1 h.2] at hnone
  exact (at_snoc t inner base).trans hnone

/-- A base is found as soon as one level that may hold it does. -/
theorem isSome_base_iff : (t.base? scope self base).isSome ↔
    ∃ outer, Visible scope self base outer ∧ (t.at? (outer ++ [base])).isSome := by
  rw [base?, List.findSome?_isSome_iff]
  constructor
  · rintro ⟨outer, hmem, hfound⟩
    split_ifs at hfound with hself
    · exact absurd hfound Bool.false_ne_true
    · have hv : Visible scope self base outer := ⟨mem_levels.mp hmem, fun ho hs => hself ⟨ho, hs⟩⟩
      exact ⟨outer, hv, at_snoc t outer base ▸ hfound⟩
  · rintro ⟨outer, ⟨hp, hself⟩, hfound⟩
    refine ⟨outer, mem_levels.mpr hp, ?_⟩
    rwa [if_neg fun h => hself h.1 h.2, ← at_snoc]

/-- A base that is named is found, or there is no new class. -/
theorem base_of_seed {name : String} {seed : Option Class}
    (hs : t.seed scope name (some base) = .ok seed) :
    ∃ c, t.base? scope (nameKey name) (nameKey base) = some c ∧ seed = some c := by
  rw [Tree.seed] at hs
  split at hs
  · rename_i c hc
    exact ⟨c, hc, (Except.ok.inj hs).symm⟩
  · simp at hs

/-- Bodies that all stand at a path or below it change nothing but the class there. -/
theorem advance_inside {hs : List Heading} (hin : ∀ h ∈ hs, scope <+: h.scope) (t : Tree) :
    ∃ f : Class → Class, (∀ d, (f d).name = d.name) ∧ (t.advance hs).tree = t.alter scope f := by
  have hself (t : Tree) : t = t.alter scope fun d => d :=
    congrArg Tree.mk (Class.alter_self scope t.root).symm
  induction hs generalizing t with
  | nil => exact ⟨fun d => d, fun _ => rfl, hself t⟩
  | cons h hs ih =>
    obtain ⟨hfirst, hrest⟩ := List.forall_mem_cons.mp hin
    rw [advance]
    split
    · rename_i mid he
      obtain ⟨rest, hscope⟩ := hfirst
      obtain ⟨seed, _, rfl⟩ := enter_eq_ok.mp he
      obtain ⟨g, hg⟩ : ∃ g : Class → Class, g = Class.alter (fun level =>
          level.admitBody h.name h.base seed h.properties) rest := ⟨_, rfl⟩
      have hname (d : Class) : (g d).name = d.name := hg ▸
        (Class.sameHead_alter (Class.sameHead_admitBody _ h.base seed h.properties) rest d).name
      obtain ⟨f, hf, hnext⟩ := ih hrest (t.alter h.scope fun level =>
        level.admitBody h.name h.base seed h.properties)
      refine ⟨fun d => f (g d), fun d => (hf _).trans (hname d), hnext.trans (congrArg Tree.mk ?_)⟩
      rw [alter, ← hscope, Class.alter_append, ← hg, Class.alter_alter hname]
    · exact ⟨fun d => d, fun _ => rfl, hself t⟩

/-- Declarations that stand in a class change what is inside of it. The class keeps its head and the
children that it has, and a child for which there is no body stays as it is. -/
theorem declareAll_inside {first : Class} {children : List Declaration}
    (hf : t.at? scope = some first) (hd : t.declareAll scope children = .ok next) :
    ∃ f : Class → Class, next = t.alter scope f ∧ next.at? scope = some (f first) ∧
      (f first).SameHead first ∧ (f first).Extends first ∧
      ∀ key, (∀ d ∈ children, keyOf d = key → d.isForward = true) →
        (f first).child? key = first.child? key := by
  have hrun : (t.advance (Declaration.headingsOfAll scope children)).tree = next :=
    tree_of_result ((result_advance_headingsOfAll t scope children).trans hd)
  have hbelow : ∀ h ∈ Declaration.headingsOfAll scope children, scope <+: h.scope :=
    fun _ hm => Declaration.prefix_scope_of_mem hm
  obtain ⟨f, hname, hnext⟩ := advance_inside hbelow t
  rw [hrun] at hnext
  have hat : next.at? scope = some (f first) := by
    rw [hnext]
    exact Class.at_alter hf hname
  refine ⟨f, hnext, hat, ?_, ?_, ?_⟩
  · have hpaths : ∀ h ∈ Declaration.headingsOfAll scope children, h.path ≠ scope := by
      rintro h hm heq
      exact Declaration.path_not_prefix_scope hm (heq ▸ List.prefix_rfl)
    obtain ⟨d, hd, hsame⟩ := sameHead_advance hf hpaths
    rw [hrun, hat] at hd
    exact Option.some.inj hd ▸ hsame
  · obtain ⟨d, hd, hextends⟩ := grows_advance t _ _ first hf
    rw [hrun] at hd
    exact Option.some.inj (hat.symm.trans hd) ▸ hextends
  · intro key hforward
    -- all bodies are in children of other keys
    have hapart : ∀ h ∈ Declaration.headingsOfAll scope children,
        ∃ other, other ≠ key ∧ scope ++ [other] <+: h.path := by
      intro h hm
      obtain ⟨d, hd, hm⟩ := Declaration.mem_headingsOfAll.mp hm
      refine ⟨keyOf d, ?_, Declaration.prefix_of_mem_headings _ d h hm⟩
      intro hk
      exact Bool.false_ne_true ((Declaration.not_forward_of_mem hm).symm.trans (hforward d hd hk))
    have hsame : next.at? (scope ++ [key]) = t.at? (scope ++ [key]) := by
      rw [← hrun]
      apply at_advance_elsewhere
      · intro h hm hp
        obtain ⟨other, hne, hother⟩ := hapart h hm
        exact hne (Heading.eq_of_prefix_snoc hother hp)
      · intro h hm hp
        obtain ⟨other, hne, hother⟩ := hapart h hm
        exact absurd (Heading.eq_of_prefix_snoc (hother.trans hp) List.prefix_rfl) hne
    rwa [at_snoc, at_snoc, hat, hf] at hsame

/-- A class is declared where it does not exist. It comes up behind the other classes at its level,
and what the declarations of its children change is inside of it. -/
theorem declare_new {level : Class} {name : String} {base : Option String} {ps : List Property}
    {children : List Declaration} {position : Text.Position} (hl : t.at? scope = some level)
    (hn : level.child? (nameKey name) = none)
    (hd : t.declare scope (.body name base ps children position) = .ok next) :
    ∃ seed first made, t.seed scope name base = .ok seed ∧
      first = (Class.seeded name seed).takeOver base ps ∧
      next = t.alter scope (Class.extend [made]) ∧
      next.at? (scope ++ [nameKey name]) = some made ∧ made.SameHead first ∧ made.Extends first ∧
      ∀ key, (∀ d ∈ children, keyOf d = key → d.isForward = true) →
        made.child? key = first.child? key := by
  rw [declare] at hd
  obtain ⟨mid, he, hc⟩ := bind_eq_ok.mp hd
  obtain ⟨seed, hs, hmid⟩ := enter_eq_ok.mp he
  obtain ⟨first, hfirst⟩ : ∃ first, first = (Class.seeded name seed).takeOver base ps := ⟨_, rfl⟩
  have hkey : keyOf first = nameKey name := hfirst ▸ Class.key_seeded_takeOver name seed base ps
  have hnew : keyOf first ∉ Roster.keys level.children := by
    rw [hkey]
    exact Roster.find_eq_none_iff.mp hn
  -- entering puts the new class behind the others
  have hput : mid = t.alter scope (Class.extend [first]) := by
    rw [← hmid, hfirst]
    exact congrArg Tree.mk (Class.alter_congr hl (Class.admitBody_of_new hn base seed ps))
  have hat : mid.at? (scope ++ [nameKey name]) = some first := by
    rw [hput, ← hkey]
    exact Class.at_alter_extended hl hnew
  -- the children are declared inside of it
  obtain ⟨f, hinside, hmade, hsame, hextends, hchild⟩ := declareAll_inside hat hc
  refine ⟨seed, first, f first, hs, hfirst, ?_, hmade, hsame, hextends, hchild⟩
  rw [hinside, hput, ← hkey]
  exact congrArg Tree.mk (Class.alter_alter_extended hl hnew f)

/-- Where a class is added at a level, the classes around it keep their heads and their children. -/
theorem at_alter_extend_above (t : Tree) {path : List String} (added : Class)
    (hp : path <+: scope) (hc : t.at? path = some c) :
    ∃ d, (t.alter scope (Class.extend [added])).at? path = some d ∧ d.SameHead c ∧
      Roster.names d.children =
        Roster.names c.children ++ if path = scope then [added.name] else [] := by
  obtain ⟨rest, rfl⟩ := hp
  have hroot : t.root.at? path = some c := hc
  have hf := Class.sameHead_extend [added]
  rw [root_at_alter, Class.at_alter_above fun d => (hf d).name, hroot]
  refine ⟨_, rfl, Class.sameHead_alter hf rest c, ?_⟩
  cases rest with
  | nil =>
    rw [List.append_nil, if_pos rfl, Class.alter, Class.extend, Roster.names, List.map_append]
    rfl
  | cons key rest =>
    have hne : path ≠ path ++ key :: rest := by simp
    rw [if_neg hne, List.append_nil, Class.alter]
    exact Roster.names_change fun d _ => Class.alter_name (fun d => (hf d).name) rest d

/-- A declaration leaves each path that leads neither to its class nor around it nor into it. -/
theorem at_declare_apart {d : Declaration} {path : List String}
    (hd : t.declare scope d = .ok next) (hp : ¬path <+: scope)
    (hp' : ¬scope ++ [keyOf d] <+: path) : next.at? path = t.at? path := by
  rw [← tree_of_result ((result_advance_headings t scope d).trans hd)]
  apply at_advance_elsewhere
  · intro h hm hpath
    have hbelow := Declaration.prefix_of_mem_headings scope d h hm
    rcases List.prefix_or_prefix_of_prefix hpath hbelow with hup | hdown
    · rcases List.prefix_concat_iff.mp hup with heq | hup
      · exact hp' (heq ▸ List.prefix_rfl)
      · exact hp hup
    · exact hp' hdown
  · intro h hm hpath
    exact absurd ((Declaration.prefix_of_mem_headings scope d h hm).trans hpath) hp'

/-- A class that is declared with a base where it does not exist. The base is the innermost class of
its name, seen from the scope. The new class inherits from what the base is at that moment. The tree
is the one before with the new class behind the others at its level, so that the classes around it
keep all they have, and no class elsewhere changes, the base included. -/
theorem declare_derived (t next : Tree) (scope : List String) (level : Class) (name base : String)
    (ps : List Property) (children : List Declaration) (position : Text.Position)
    (hl : t.at? scope = some level) (hn : level.child? (nameKey name) = none)
    (hd : t.declare scope (.body name (some base) ps children position) = .ok next) :
    ∃ outer source made,
      (Visible scope (nameKey name) (nameKey base) outer ∧
        t.at? (outer ++ [nameKey base]) = some source ∧
        ∀ inner, Visible scope (nameKey name) (nameKey base) inner →
          outer.length < inner.length → t.at? (inner ++ [nameKey base]) = none) ∧
      next.at? (scope ++ [nameKey name]) = some made ∧
      made.Inherits source ⟨scope, name, some base, ps⟩ children ∧
      next = t.alter scope (Class.extend [made]) ∧
      (∀ path c, path <+: scope → t.at? path = some c → ∃ d, next.at? path = some d ∧
        d.SameHead c ∧ Roster.names d.children =
          Roster.names c.children ++ if path = scope then [name] else []) ∧
      ∀ path, ¬path <+: scope → ¬scope ++ [nameKey name] <+: path → next.at? path = t.at? path := by
  obtain ⟨seed, first, made, hs, hfirst, hnext, hmade, hsame, hextends, hchild⟩ :=
    declare_new hl hn hd
  obtain ⟨source, hb, rfl⟩ := base_of_seed hs
  obtain ⟨outer, hv, hat, hinner⟩ := base_innermost hb
  have hinherits : made.Inherits source ⟨scope, name, some base, ps⟩ children := by
    subst hfirst
    exact Class.inherits_of_seeded rfl hsame hextends hchild
  refine ⟨outer, source, made, ⟨hv, hat, hinner⟩, hmade, hinherits, hnext, ?_, ?_⟩
  -- around the new class, only its own level has one name more
  · intro path c hp hc
    obtain ⟨d, hd, hhead, hnames⟩ := at_alter_extend_above t made hp hc
    rw [← hnext] at hd
    have hname : made.name = name := hinherits.name
    rw [hname] at hnames
    exact ⟨d, hd, hhead, hnames⟩
  · intro path hp hp'
    exact at_declare_apart hd hp hp'

-- `class B { a[] = {0}; };` and
-- `class O { class B { a[] = {1}; class K {}; class P {}; }; class M {}; };`
def nested : Tree :=
  ⟨⟨"", none, [], [⟨"B", none, [⟨"a", .array [.number "0"]⟩], []⟩,
    ⟨"O", none, [], [⟨"B", none, [⟨"a", .array [.number "1"]⟩], [.empty "K", .empty "P"]⟩,
      .empty "M"]⟩]⟩⟩

-- `class L: b { A[] += {2}; class p { x = 1; }; class K; };`
def leaf : Declaration :=
  .body "L" (some "b") [⟨"A", .array [.number "2"], true, .start⟩]
    [.body "p" none [⟨"x", .scalar (.number "1"), false, .start⟩] [] .start,
      .forward "K" .start] .start

-- The class of `leaf` in `nested`, where it stands in the class `M`.
def nestedLeaf : Class :=
  ⟨"L", some "b", [⟨"a", .array [.number "1", .number "2"]⟩],
    [.empty "K", ⟨"P", none, [⟨"x", .scalar (.number "1")⟩], []⟩]⟩

theorem declare_derived_leaf :
    nested.at? ["o", "m"] = some (.empty "M") ∧ (Class.empty "M").child? (nameKey "L") = none ∧
    nested.declare ["o", "m"] leaf = .ok (nested.alter ["o", "m"] (Class.extend [nestedLeaf])) ∧
    ∃ outer source, nested.at? (outer ++ [nameKey "b"]) = some source ∧
      nestedLeaf.Inherits source ⟨["o", "m"], "L", some "b", leaf.properties⟩ leaf.children := by
  have hl : nested.at? ["o", "m"] = some (.empty "M") := by cbv
  have hn : (Class.empty "M").child? (nameKey "L") = none := by cbv
  have hd : nested.declare ["o", "m"] leaf =
      .ok (nested.alter ["o", "m"] (Class.extend [nestedLeaf])) := by cbv
  obtain ⟨outer, source, made, ⟨_, hat, _⟩, hmade, hinherits, _⟩ :=
    declare_derived nested _ _ _ _ _ _ _ _ hl hn hd
  have hleaf : (nested.alter ["o", "m"] (Class.extend [nestedLeaf])).at?
      (["o", "m"] ++ [nameKey "L"]) = some nestedLeaf :=
    Class.at_alter_extended hl List.not_mem_nil
  rw [hleaf] at hmade
  obtain rfl := Option.some.inj hmade
  exact ⟨hl, hn, hd, outer, source, hat, hinherits⟩

end Tree

end Overlay
