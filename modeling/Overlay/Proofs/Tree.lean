import Overlay.Proofs.Fragment
import Overlay.Tree.Merge

/-! What every merged tree keeps to. In each class the properties and the children have names that
all differ, and whatever the tree holds can be written. A declaration changes the tree at one level
only, which stays in order, and a base that is copied is in order already. -/
namespace Overlay
open Attempt (bind_eq_ok pure_eq_ok)

structure Member.Proper (m : Member) : Prop where
  name : IsName m.name
  value : m.value.Proper

instance (m : Member) : Decidable m.Proper :=
  decidable_of_iff (IsName m.name ∧ m.value.Proper) ⟨fun h => ⟨h.1, h.2⟩, fun h => ⟨h.1, h.2⟩⟩

inductive Class.Proper : Class → Prop
  | intro {name : String} {base : Option String} {properties : List Member}
      {children : List Class} (hn : IsName name) (hb : ∀ b ∈ base, IsName b)
      (hp : ∀ m ∈ properties, m.Proper) (hpk : (Roster.keys properties).Nodup)
      (hc : ∀ c ∈ children, Proper c) (hck : (Roster.keys children).Nodup) :
      Proper ⟨name, base, properties, children⟩

namespace Class

/-- What a class holds is proper, whatever its own name and base. -/
structure Ordered (c : Class) : Prop where
  properties : ∀ m ∈ c.properties, m.Proper
  propertyKeys : (Roster.keys c.properties).Nodup
  children : ∀ d ∈ c.children, d.Proper
  childKeys : (Roster.keys c.children).Nodup

/-- Two classes that differ in their children at most. -/
structure SameHead (c d : Class) : Prop where
  name : c.name = d.name
  base : c.base = d.base
  properties : c.properties = d.properties

variable {c : Class}

/-- A class is proper if its names are, and what it holds is in order. -/
theorem proper_iff : c.Proper ↔ IsName c.name ∧ (∀ b ∈ c.base, IsName b) ∧ c.Ordered := by
  cases c
  constructor
  · rintro ⟨hn, hb, hp, hpk, hc, hck⟩
    exact ⟨hn, hb, hp, hpk, hc, hck⟩
  · rintro ⟨hn, hb, hp, hpk, hc, hck⟩
    exact .intro hn hb hp hpk hc hck

theorem Proper.ordered (h : c.Proper) : c.Ordered := (proper_iff.mp h).2.2

theorem Proper.of_sameHead {d : Class} (h : c.Proper) (hs : d.SameHead c) (ho : d.Ordered) :
    d.Proper := by
  obtain ⟨hn, hb, _⟩ := proper_iff.mp h
  exact proper_iff.mpr ⟨hs.name ▸ hn, hs.base ▸ hb, ho⟩

theorem ordered_empty (name : String) : (empty name).Ordered :=
  ⟨by simp [empty], List.nodup_nil, by simp [empty], List.nodup_nil⟩

theorem proper_update {current declared : Value} {append : Bool} (hc : current.Proper)
    (hd : declared.Proper) : (current.update append declared).Proper := by
  unfold Value.update
  split
  · rename_i items more
    intro s hs
    rcases List.mem_append.mp hs with hs | hs
    · exact hc s hs
    · exact hd s hs
  · exact hd

theorem ordered_assign {p : Property} (h : c.Ordered) (hp : p.Proper) : (c.assign p).Ordered := by
  refine ⟨?_, ?_, h.children, h.childKeys⟩
  · apply Roster.forall_absorb h.properties ⟨hp.name, hp.value⟩
    exact fun m _ _ hm => ⟨hm.name, proper_update hm.value hp.value⟩
  · exact Roster.nodup_absorb (fun m _ hk => hk) h.propertyKeys

theorem ordered_takeOver {base : Option String} {properties : List Property} (h : c.Ordered)
    (hp : ∀ p ∈ properties, p.Proper) : (c.takeOver base properties).Ordered := by
  have hfold (ps : List Property) (d : Class) (hd : d.Ordered) (hps : ∀ p ∈ ps, p.Proper) :
      (ps.foldl assign d).Ordered := by
    induction ps generalizing d with
    | nil => exact hd
    | cons p ps ih =>
      obtain ⟨hfirst, hrest⟩ := List.forall_mem_cons.mp hps
      exact ih _ (ordered_assign hd hfirst) hrest
  exact hfold properties _ ⟨h.properties, h.propertyKeys, h.children, h.childKeys⟩ hp

theorem head_of_takeOver (c : Class) (base : Option String) (properties : List Property) :
    (c.takeOver base properties).name = c.name ∧
      (c.takeOver base properties).base = (base <|> c.base) := by
  have hfold (ps : List Property) (d : Class) :
      (ps.foldl assign d).name = d.name ∧ (ps.foldl assign d).base = d.base := by
    induction ps generalizing d with
    | nil => exact ⟨rfl, rfl⟩
    | cons p ps ih => exact ih (d.assign p)
  exact hfold properties _

theorem proper_takeOver {base : Option String} {properties : List Property} (h : c.Ordered)
    (hn : IsName c.name) (hb : ∀ b ∈ c.base, IsName b) (hb' : ∀ b ∈ base, IsName b)
    (hp : ∀ p ∈ properties, p.Proper) : (c.takeOver base properties).Proper := by
  obtain ⟨hname, hbase⟩ := head_of_takeOver c base properties
  refine proper_iff.mpr ⟨hname ▸ hn, ?_, ordered_takeOver h hp⟩
  rw [hbase]
  cases base with
  | none => exact hb
  | some b => exact hb'

/-- A new class is in order, as the one is that it is a copy of. -/
theorem ordered_seeded {name : String} {seed : Option Class} (h : ∀ d ∈ seed, d.Proper) :
    (seeded name seed).Ordered := by
  cases seed with
  | none => exact ordered_empty name
  | some d =>
    have hd := (h d rfl).ordered
    exact ⟨hd.properties, hd.propertyKeys, hd.children, hd.childKeys⟩

theorem name_of_seeded (name : String) (seed : Option Class) :
    (seeded name seed).name = name ∧ (seeded name seed).base = none := by
  cases seed <;> exact ⟨rfl, rfl⟩

theorem ordered_admitBody {level : Class} {name : String} {base : Option String}
    {seed : Option Class} {properties : List Property} (h : level.Ordered) (hn : IsName name)
    (hb : ∀ b ∈ base, IsName b) (hs : ∀ d ∈ seed, d.Proper)
    (hp : ∀ p ∈ properties, p.Proper) :
    (level.admitBody name base seed properties).Ordered := by
  -- the class is new at this level, or it is there already and takes over more
  have hnew : ((seeded name seed).takeOver base properties).Proper := by
    obtain ⟨hname, hbase⟩ := name_of_seeded name seed
    apply proper_takeOver (ordered_seeded hs) _ _ hb hp
    · rwa [hname]
    · simp [hbase]
  refine ⟨h.properties, h.propertyKeys, ?_, ?_⟩
  · apply Roster.forall_absorb h.children hnew
    intro d _ _ hd
    obtain ⟨hdn, hdb, hdo⟩ := proper_iff.mp hd
    exact proper_takeOver hdo hdn hdb hb hp
  · apply Roster.nodup_absorb _ h.childKeys
    intro d _ hk
    rw [← hk]
    exact congrArg nameKey (head_of_takeOver d base properties).1

/-- A change that keeps to one level keeps the classes around it in order. -/
theorem ordered_alter {f : Class → Class} (hf : ∀ d, d.Ordered → (f d).Ordered ∧ (f d).SameHead d)
    (path : List String) (h : c.Ordered) :
    (c.alter f path).Ordered ∧ (c.alter f path).SameHead c := by
  -- along the path; each class on it only changes its children, so no key changes
  induction path generalizing c with
  | nil => exact hf c h
  | cons key path ih =>
    refine ⟨⟨h.properties, h.propertyKeys, ?_, ?_⟩, rfl, rfl, rfl⟩
    · apply Roster.forall_change h.children
      intro d _ hd
      obtain ⟨ho, hs⟩ := ih hd.ordered
      exact hd.of_sameHead hs ho
    · have hkeys : Roster.keys (Roster.change key (alter f path) c.children) =
          Roster.keys c.children := by
        apply Roster.keys_change
        intro d hd
        exact congrArg nameKey (ih (h.children d hd).ordered).2.name
      exact hkeys ▸ h.childKeys

theorem ordered_at {path : List String} {d : Class} (h : c.Ordered) (hd : c.at? path = some d) :
    d.Ordered := by
  induction path generalizing c with
  | nil =>
    rw [← Option.some.inj hd]
    exact h
  | cons key path ih =>
    obtain ⟨e, he, hd⟩ := Option.bind_eq_some_iff.mp hd
    exact ih (h.children e (Roster.mem_of_find he)).ordered hd

end Class

namespace Tree

structure Proper (t : Tree) : Prop where
  root : t.root.Ordered
  head : t.root.SameHead (.empty "")

variable {t next : Tree} {scope : List String}

theorem proper_empty : empty.Proper := ⟨Class.ordered_empty "", rfl, rfl, rfl⟩

theorem proper_of_base {self base : String} {c : Class} (h : t.Proper)
    (hb : t.base? scope self base = some c) : c.Proper := by
  obtain ⟨path, _, hp⟩ := List.exists_of_findSome?_eq_some hb
  split_ifs at hp
  obtain ⟨level, hl, hc⟩ := Option.bind_eq_some_iff.mp hp
  exact (Class.ordered_at h.root hl).children c (Roster.mem_of_find hc)

theorem proper_of_seed {name : String} {base : Option String} {seed : Option Class}
    (h : t.Proper) (hs : t.seed scope name base = .ok seed) : ∀ c ∈ seed, c.Proper := by
  cases base with
  | none =>
    rw [← Except.ok.inj hs]
    simp
  | some base =>
    rw [Tree.seed] at hs
    split at hs
    · rename_i c hc
      rw [← Except.ok.inj hs]
      intro d hd
      rw [← Option.mem_some.mp hd]
      exact proper_of_base h hc
    · simp at hs

theorem proper_enter {name : String} {base : Option String} {properties : List Property}
    (h : t.Proper) (hn : IsName name) (hb : ∀ b ∈ base, IsName b)
    (hp : ∀ p ∈ properties, p.Proper) (he : t.enter scope name base properties = .ok next) :
    next.Proper := by
  obtain ⟨seed, hs, he⟩ := bind_eq_ok.mp he
  rw [← pure_eq_ok.mp he]
  have hseed := proper_of_seed h hs
  have hlevel (d : Class) (hd : d.Ordered) :
      (d.admitBody name base seed properties).Ordered ∧
        (d.admitBody name base seed properties).SameHead d :=
    ⟨Class.ordered_admitBody hd hn hb hseed hp, rfl, rfl, rfl⟩
  obtain ⟨ho, hh⟩ := Class.ordered_alter hlevel scope h.root
  exact ⟨ho, hh.name.trans h.head.name, hh.base.trans h.head.base,
    hh.properties.trans h.head.properties⟩

theorem proper_declareAll_of {ds : List Declaration} (h : t.Proper)
    (hd : ∀ d ∈ ds, ∀ (t next : Tree), t.Proper → t.declare scope d = .ok next → next.Proper)
    (ha : t.declareAll scope ds = .ok next) : next.Proper := by
  induction ds generalizing t with
  | nil =>
    rw [declareAll] at ha
    rwa [← Except.ok.inj ha]
  | cons d ds ih =>
    rw [declareAll] at ha
    obtain ⟨mid, hm, ha⟩ := bind_eq_ok.mp ha
    obtain ⟨hfirst, hrest⟩ := List.forall_mem_cons.mp hd
    exact ih (hfirst t mid h hm) hrest ha

/-- A tree stays proper by a declaration. The induction goes along the declaration. -/
theorem proper_declare {d : Declaration} (hd : d.Proper) (h : t.Proper)
    (he : t.declare scope d = .ok next) : next.Proper := by
  -- on the declaration; the tree and the scope differ from child to child
  induction hd generalizing t next scope with
  | forward hn =>
    rw [declare] at he
    rwa [← Except.ok.inj he]
  | body hn hb hp _ _ _ ih =>
    rw [declare] at he
    obtain ⟨mid, hm, he⟩ := bind_eq_ok.mp he
    have hmid := proper_enter h hn hb hp hm
    exact proper_declareAll_of hmid (fun d hd t next ht hs => ih d hd ht hs) he

theorem proper_apply {source : String} {forest : Forest} (h : t.Proper) (hf : Forest.Proper forest)
    (ha : t.apply source forest = .ok next) : next.Proper := by
  rw [apply] at ha
  cases hd : t.declareAll [] forest with
  | error fault => simp [hd, Except.mapError] at ha
  | ok tree =>
    simp only [hd, Except.mapError, Except.ok.injEq] at ha
    rw [← ha]
    exact proper_declareAll_of h (fun d hm t next ht hs => proper_declare (hf.all d hm) ht hs) hd

/-- Every tree that proper fragments merge to is proper. -/
theorem proper_merge {fragments : List (String × Forest)}
    (hf : ∀ f ∈ fragments, Forest.Proper f.2) (hm : merge fragments = .ok t) : t.Proper := by
  have hall (fragments : List (String × Forest)) (hf : ∀ f ∈ fragments, Forest.Proper f.2)
      (start : Tree) (hs : start.Proper) (ha : start.applyAll fragments = .ok t) : t.Proper := by
    induction fragments generalizing start with
    | nil =>
      rw [applyAll] at ha
      rwa [← Except.ok.inj ha]
    | cons fragment rest ih =>
      obtain ⟨source, forest⟩ := fragment
      rw [applyAll] at ha
      obtain ⟨mid, hm, ha⟩ := bind_eq_ok.mp ha
      obtain ⟨hfirst, hrest⟩ := List.forall_mem_cons.mp hf
      exact ih hrest mid (proper_apply hs hfirst hm) ha
  exact hall fragments hf empty proper_empty hm

/-- A tree that is merged of parsed fragments is proper. -/
theorem proper_of_parsed {fragments : List (String × Forest)}
    (hf : ∀ f ∈ fragments, ∃ text, Fragment.parse text = .ok f.2)
    (hm : merge fragments = .ok t) : t.Proper := by
  refine proper_merge (fun f hfm => ?_) hm
  obtain ⟨text, hparse⟩ := hf f hfm
  exact Fragment.proper_of_parse hparse

end Tree

end Overlay
