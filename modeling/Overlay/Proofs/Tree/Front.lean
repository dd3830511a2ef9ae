import Overlay.Proofs.Tree.Entering

namespace Overlay

namespace Roster

variable {α : Type} [Named α] {members others : List α} {x : α} {join : α → α}

/-- Members under the same keys in the same order are the same if each is found among the others. -/
theorem eq_of_find (hk : keys members = keys others) (hd : (keys others).Nodup)
    (hf : ∀ a ∈ members, find? (keyOf a) others = some a) : members = others := by
  have hlength : members.length = others.length := by
    have hkeys := congrArg List.length hk
    rwa [keys, keys, List.length_map, List.length_map] at hkeys
  apply List.ext_getElem hlength
  intro i hi hi'
  have hkey : keyOf others[i] = keyOf members[i] := by
    have hsome := congrArg (fun ks : List String => ks[i]?) hk
    simp only [keys, List.getElem?_map, List.getElem?_eq_getElem hi,
      List.getElem?_eq_getElem hi', Option.map_some, Option.some.injEq] at hsome
    exact hsome.symm
  have hfound : find? (keyOf members[i]) others = some others[i] :=
    (find_eq_some_iff hd).mpr ⟨List.getElem_mem hi', hkey⟩
  exact Option.some.inj ((hf _ (List.getElem_mem hi)).symm.trans hfound)

theorem absorb_of_known (h : keyOf x ∈ keys members) :
    absorb join x members = change (keyOf x) join members := by
  induction members with
  | nil => simp [keys] at h
  | cons a as ih =>
    by_cases ha : keyOf a = keyOf x
    · rw [absorb, if_pos ha, change, if_pos ha]
    · have hrest : keyOf x ∈ keys as := by
        rw [keys, List.map_cons, List.mem_cons] at h
        exact h.resolve_left (Ne.symm ha)
      rw [absorb, if_neg ha, change, if_neg ha, ih hrest]

end Roster

namespace Class

variable {c d level : Class}

/-- A class whose children are known by their names only. -/
def front (c : Class) : Class := { c with children := c.children.map fun d => empty d.name }

def front? (c : Class) (path : List String) : Option Class := (c.at? path).map front

/-- Classes show the same exactly if they differ further inside only. -/
theorem front_eq_iff :
    c.front = d.front ↔ c.SameHead d ∧ Roster.names c.children = Roster.names d.children := by
  constructor
  · intro h
    rw [front, front, Class.mk.injEq] at h
    obtain ⟨hname, hbase, hproperties, hchildren⟩ := h
    have hnames := congrArg (List.map name) hchildren
    rw [List.map_map, List.map_map] at hnames
    exact ⟨⟨hname, hbase, hproperties⟩, hnames⟩
  · rintro ⟨hs, hn⟩
    have hchildren := congrArg (List.map empty) hn
    rw [Roster.names, Roster.names, List.map_map, List.map_map] at hchildren
    rw [front, front, hs.name, hs.base, hs.properties]
    exact congrArg (Class.mk d.name d.base d.properties) hchildren

theorem front_takeOver (c : Class) (base : Option String) (ps : List Property) :
    (c.takeOver base ps).front = c.front.takeOver base ps := by
  rw [takeOver, takeOver, foldl_assign, foldl_assign]
  rfl

theorem front?_child {key : String} (h : c.child? key = some d) (path : List String) :
    c.front? (key :: path) = d.front? path := by
  rw [front?, at?, h]
  rfl

/-- Classes in order are the same if they show the same at every path and their children are known
by that, too. -/
theorem Ordered.eq_of_front?_of (hc : c.Ordered) (hd : d.Ordered)
    (hchild : ∀ a ∈ c.children, ∀ b, b.Ordered → (∀ path, a.front? path = b.front? path) → a = b)
    (h : ∀ path, c.front? path = d.front? path) : c = d := by
  obtain ⟨hsame, hnames⟩ := front_eq_iff.mp (Option.some.inj (h []))
  have hkeys : Roster.keys c.children = Roster.keys d.children := by
    rw [Roster.keys_eq_names, Roster.keys_eq_names, hnames]
  have hchildren : c.children = d.children := by
    apply Roster.eq_of_find hkeys hd.childKeys
    intro a ha
    have hin : keyOf a ∈ Roster.keys d.children := hkeys ▸ List.mem_map_of_mem ha
    obtain ⟨b, hb, hkey⟩ := List.mem_map.mp hin
    have hca : c.child? (keyOf a) = some a := (Roster.find_eq_some_iff hc.childKeys).mpr ⟨ha, rfl⟩
    have hdb : d.child? (keyOf a) = some b := (Roster.find_eq_some_iff hd.childKeys).mpr ⟨hb, hkey⟩
    have hab : a = b := by
      apply hchild a ha b (hd.children b hb).ordered
      intro path
      rw [← front?_child hca, ← front?_child hdb, h]
    exact hdb.trans (congrArg some hab.symm)
  cases c
  cases d
  rw [Class.mk.injEq]
  exact ⟨hsame.name, hsame.base, hsame.properties, hchildren⟩

theorem Proper.eq_of_front? (hc : c.Proper) (hd : d.Ordered)
    (h : ∀ path, c.front? path = d.front? path) : c = d := by
  -- on the class; a child is compared with the child of the same key
  induction hc generalizing d with
  | @intro name base properties children _ _ hp hpk hall hck ih =>
    have hc : Ordered ⟨name, base, properties, children⟩ := ⟨hp, hpk, hall, hck⟩
    exact hc.eq_of_front?_of hd (fun a ha b hb hab => ih a ha hb hab) h

/-- Classes in order that show the same at every path are the same. -/
theorem Ordered.eq_of_front? (hc : c.Ordered) (hd : d.Ordered)
    (h : ∀ path, c.front? path = d.front? path) : c = d :=
  hc.eq_of_front?_of hd (fun a ha _ hb hab => (hc.children a ha).eq_of_front? hb hab) h

/-- A change that keeps the name and the children of a class is seen at its path only. -/
theorem front?_alter {f : Class → Class} (hn : ∀ d : Class, (f d).name = d.name)
    (hc : ∀ d : Class, (f d).children = d.children) (path other : List String) (c : Class) :
    (c.alter f path).front? other =
      if other = path then (c.at? other).map fun d => (f d).front else c.front? other := by
  rw [front?]
  split_ifs with heq
  · subst heq
    have hhere := at_alter_above hn other [] c
    rw [List.append_nil] at hhere
    rw [hhere, Option.map_map]
    rfl
  · by_cases habove : other <+: path
    · obtain ⟨rest, rfl⟩ := habove
      obtain ⟨key, rest, rfl⟩ := List.exists_cons_of_ne_nil
        (fun h : rest = [] => heq (h ▸ (List.append_nil other).symm))
      -- of the children one is changed, but not in its name
      have hfront (d : Class) : (d.alter f (key :: rest)).front = d.front :=
        front_eq_iff.mpr ⟨⟨rfl, rfl, rfl⟩, Roster.names_change fun e _ => alter_name hn rest e⟩
      rw [at_alter_above hn, Option.map_map, front?]
      exact congrArg (fun g => (c.at? other).map g) (funext hfront)
    · by_cases hbelow : path <+: other
      · obtain ⟨rest, rfl⟩ := hbelow
        obtain ⟨key, rest, rfl⟩ := List.exists_cons_of_ne_nil
          (fun h : rest = [] => heq (h ▸ List.append_nil path))
        have hinside (d : Class) : (f d).at? (key :: rest) = d.at? (key :: rest) := by
          rw [at?, at?, child?, child?, hc]
        rw [at_alter_below hn, front?, at_append]
        simp only [hinside]
      · rw [at_alter_apart hn hbelow habove, front?]

theorem admitBody_of_known {name : String} (h : (level.child? (nameKey name)).isSome)
    (base : Option String) (seed : Option Class) (ps : List Property) :
    level.admitBody name base seed ps =
      level.alter (fun c => c.takeOver base ps) [nameKey name] := by
  have hkey := key_seeded_takeOver name seed base ps
  have hknown : keyOf ((seeded name seed).takeOver base ps) ∈ Roster.keys level.children := by
    rw [hkey]
    by_contra hn
    rw [child?, Roster.find_eq_none_iff.mpr hn] at h
    exact Bool.false_ne_true h
  rw [admitBody, Roster.absorb_of_known hknown, hkey]
  rfl

end Class

namespace Tree

variable {t next : Tree} {h : Heading}

def front? (t : Tree) (path : List String) : Option Class := t.root.front? path

/-- Trees in order that show the same at every path are the same. -/
theorem Proper.eq_of_front? (ht : t.Proper) (hn : next.Proper)
    (h : ∀ path, t.front? path = next.front? path) : t = next :=
  congrArg Tree.mk (ht.root.eq_of_front? hn.root h)

/-- Where its class is there already, a body is taken over by it and nothing else happens. -/
theorem enter_known (hs : (t.at? h.path).isSome)
    (he : t.enter h.scope h.name h.base h.properties = .ok next) :
    next = t.alter h.path fun c => c.takeOver h.base h.properties := by
  obtain ⟨seed, _, rfl⟩ := enter_eq_ok.mp he
  rw [at?, Heading.path, Class.at_append] at hs
  obtain ⟨level, hl⟩ := Option.isSome_iff_exists.mp (Option.isSome_of_isSome_bind hs)
  rw [hl, Option.bind_some, Class.at?] at hs
  rw [alter, alter, Heading.path, Class.alter_append]
  exact congrArg Tree.mk (Class.alter_congr hl
    (Class.admitBody_of_known (Option.isSome_of_isSome_bind hs) h.base seed h.properties))

/-- A body whose class is there already changes what this class shows, and nothing else. -/
theorem front?_enter (hs : (t.at? h.path).isSome)
    (he : t.enter h.scope h.name h.base h.properties = .ok next) (path : List String) :
    next.front? path = if path = h.path then
      (t.front? path).map fun c => c.takeOver h.base h.properties else t.front? path := by
  rw [enter_known hs he, front?, alter, Class.front?_alter
    (fun d => (Class.head_of_takeOver d h.base h.properties).1)
    (fun d => Class.children_takeOver d h.base h.properties)]
  simp only [Class.front_takeOver]
  rw [front?, Class.front?, Option.map_map]
  rfl

end Tree

end Overlay
