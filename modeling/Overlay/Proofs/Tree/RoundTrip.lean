import Overlay.Proofs.Tree.Alter
import Overlay.Proofs.Tree.Reading

/-! Writing a merged tree and merging what is read back. A written class stands for a declaration
without base; merged at a level that has no class of its name, the declaration adds the class again,
with the same members in the same order. -/
namespace Overlay
open Attempt (bind_eq_ok pure_eq_ok)

namespace Class

mutual

/-- The class with no base recorded, neither for itself nor below. -/
def withoutBases : Class → Class
  | ⟨name, _, properties, children⟩ => ⟨name, none, properties, withoutBasesAll children⟩

def withoutBasesAll : List Class → List Class
  | [] => []
  | c :: cs => withoutBases c :: withoutBasesAll cs

end

theorem withoutBasesAll_eq (cs : List Class) : withoutBasesAll cs = cs.map withoutBases := by
  induction cs with
  | nil => rfl
  | cons c cs ih => rw [withoutBasesAll, List.map_cons, ih]

theorem keyOf_withoutBases (c : Class) : keyOf c.withoutBases = keyOf c := by
  cases c
  rw [withoutBases]
  rfl

theorem takeOver_bare (c : Class) (base : Option String) (ps : List Property) :
    c.takeOver base (ps.map Property.bare) = c.takeOver base ps := by
  rw [takeOver, takeOver, List.foldl_map]
  rfl

/-- A new class takes over members whose names all differ just as they are. -/
theorem takeOver_members (name : String) {ms : List Member} (h : (Roster.keys ms).Nodup) :
    (empty name).takeOver none (ms.map Member.declaration) = ⟨name, none, ms, []⟩ := by
  have hfold (known : List Member) : (ms.map Member.declaration).foldl assign
      ⟨name, none, known, []⟩ = ⟨name, none, ms.foldl (fun known m =>
        Roster.absorb (fun e => e.update m.declaration) m known) known, []⟩ := by
    clear h
    induction ms generalizing known with
    | nil => rfl
    | cons m ms ih =>
      rw [List.map_cons, List.foldl_cons, List.foldl_cons]
      exact ih _
  have hlined := Roster.foldl_absorb (fun m e => Member.update e m.declaration) [] ms
    (by rwa [List.nil_append])
  rw [takeOver]
  exact (hfold []).trans (congrArg (fun known => Class.mk name none known []) hlined)

end Class

def Tree.withoutBases (t : Tree) : Tree := ⟨t.root.withoutBases⟩

namespace Tree

/-- Where a property was read does not matter to merging it. -/
theorem enter_bare (t : Tree) (scope : List String) (name : String) (base : Option String)
    (ps : List Property) :
    t.enter scope name base (ps.map Property.bare) = t.enter scope name base ps := by
  simp only [enter, Class.admitBody, Class.takeOver_bare]

mutual

/-- Where a declaration was read from does not matter to merging it. -/
theorem declare_bare (t : Tree) (scope : List String) :
    (d : Declaration) → t.declare scope d.bare = t.declare scope d
  | .forward name position => by
    rw [Declaration.bare, declare, declare]
  | .body name base properties children position => by
    rw [Declaration.bare, declare, declare, enter_bare]
    exact congrArg _ (funext fun t => declareAll_bare t _ children)

theorem declareAll_bare (t : Tree) (scope : List String) :
    (ds : List Declaration) → t.declareAll scope (Declaration.bareAll ds) = t.declareAll scope ds
  | [] => by
    rw [Declaration.bareAll]
  | d :: ds => by
    rw [Declaration.bareAll, declareAll, declareAll, declare_bare t scope d]
    exact congrArg _ (funext fun t => declareAll_bare t scope ds)

end

/-- Declared at a level that has no class of its name, the class is added there. -/
def Adds (c : Class) : Prop :=
  ∀ (t : Tree) (scope : List String) (level : Class), t.at? scope = some level →
    keyOf c ∉ Roster.keys level.children →
    t.declare scope c.declaration = .ok (t.alter scope (Class.extend [c.withoutBases]))

/-- Written classes are added one after the other, each behind those in front of it. -/
theorem declareAll_declarations {cs : List Class} (hcs : ∀ c ∈ cs, Adds c) {t : Tree}
    {scope : List String} {level : Class} (hl : t.at? scope = some level)
    (hk : (Roster.keys (level.children ++ cs)).Nodup) :
    t.declareAll scope (cs.map Class.declaration) =
      .ok (t.alter scope (Class.extend (cs.map Class.withoutBases))) := by
  -- on the classes; each one is declared at the level as the ones before have left it
  induction cs generalizing t level with
  | nil =>
    rw [List.map_nil, declareAll, List.map_nil, alter, Class.extend_nil, Class.alter_self]
  | cons c cs ih =>
    obtain ⟨hc, hcs⟩ := List.forall_mem_cons.mp hcs
    have hnew : keyOf c ∉ Roster.keys level.children := by
      rw [Roster.keys, List.map_append, List.map_cons] at hk
      intro hm
      exact List.disjoint_of_nodup_append hk hm List.mem_cons_self
    have hl' : (t.alter scope (Class.extend [c.withoutBases])).at? scope =
        some (Class.extend [c.withoutBases] level) := Class.at_alter hl fun _ => rfl
    have hk' : (Roster.keys ((Class.extend [c.withoutBases] level).children ++ cs)).Nodup := by
      have hkeys : Roster.keys ((Class.extend [c.withoutBases] level).children ++ cs) =
          Roster.keys (level.children ++ c :: cs) := by
        simp [Class.extend, Roster.keys, Class.keyOf_withoutBases]
      rwa [hkeys]
    have htwice : (t.root.alter (Class.extend [c.withoutBases]) scope).alter
        (Class.extend (cs.map Class.withoutBases)) scope =
          t.root.alter (Class.extend ((c :: cs).map Class.withoutBases)) scope := by
      have hnames (d : Class) : (Class.extend [c.withoutBases] d).name = d.name := rfl
      rw [Class.alter_alter hnames, Class.extend_extend]
      rfl
    rw [List.map_cons, declareAll]
    refine bind_eq_ok.mpr ⟨_, hc t scope level hl hnew, ?_⟩
    rw [ih hcs hl' hk']
    exact congrArg (fun root => Except.ok (Tree.mk root)) htwice

/-- A proper class is added as it was written. The induction goes along its children. -/
theorem adds_of_proper {c : Class} (hc : c.Proper) : Adds c := by
  induction hc with
  | @intro name base ms cs hn hb hm hmk _ hck ih =>
    intro t scope level hl hnew
    obtain ⟨added, hadded⟩ : ∃ added, added = Class.mk name none ms [] := ⟨_, rfl⟩
    have hkey : keyOf added = nameKey name := by
      rw [hadded]
      rfl
    have hnew : keyOf added ∉ Roster.keys level.children := by rwa [hkey]
    -- the head adds the class without children, and the children are then declared inside it
    have hadmit : level.admitBody name none none (ms.map Member.declaration) =
        Class.extend [added] level := by
      have hseeded : (Class.seeded name none).takeOver none (ms.map Member.declaration) = added :=
        (Class.takeOver_members name hmk).trans hadded.symm
      rw [Class.admitBody, hseeded, Roster.absorb_of_new hnew]
      rfl
    have henter : t.enter scope name none (ms.map Member.declaration) =
        .ok (t.alter scope (Class.extend [added])) :=
      congrArg (fun root => Except.ok (Tree.mk root)) (Class.alter_congr hl hadmit)
    have hat : (t.alter scope (Class.extend [added])).at? (scope ++ [nameKey name]) =
        some added := by
      rw [← hkey]
      exact Class.at_alter_extended hl hnew
    have hinside : (Roster.keys (added.children ++ cs)).Nodup := by
      rwa [hadded, List.nil_append]
    have hall : Class.extend (cs.map Class.withoutBases) added =
        Class.withoutBases ⟨name, base, ms, cs⟩ := by
      rw [hadded, Class.withoutBases, Class.withoutBasesAll_eq]
      rfl
    have htwice : (t.root.alter (Class.extend [added]) scope).alter
        (Class.extend (cs.map Class.withoutBases)) (scope ++ [nameKey name]) =
          t.root.alter (Class.extend [Class.withoutBases ⟨name, base, ms, cs⟩]) scope := by
      rw [← hkey, Class.alter_alter_extended hl hnew, hall]
    rw [Class.declaration, Class.declarations_eq, declare]
    refine bind_eq_ok.mpr ⟨_, henter, ?_⟩
    rw [declareAll_declarations ih hat hinside]
    exact congrArg (fun root => Except.ok (Tree.mk root)) htwice

/-- Merging the declarations of a proper tree alone gives the tree without bases. -/
theorem merge_declarations {t : Tree} (ht : t.Proper) {forest : Forest}
    (hf : forest.map Declaration.bare = t.root.children.map Class.declaration) (source : String) :
    merge [(source, forest)] = .ok t.withoutBases := by
  have hl : empty.at? [] = some (Class.empty "") := rfl
  have hk : (Roster.keys ((Class.empty "").children ++ t.root.children)).Nodup :=
    ht.root.childKeys
  have hadds : ∀ c ∈ t.root.children, Adds c := fun c hc => adds_of_proper (ht.root.children c hc)
  have hdeclared : empty.declareAll [] forest =
      .ok (empty.alter [] (Class.extend (t.root.children.map Class.withoutBases))) := by
    rw [← declareAll_bare, Declaration.bareAll_eq, hf]
    exact declareAll_declarations hadds hl hk
  have hroot : empty.alter [] (Class.extend (t.root.children.map Class.withoutBases)) =
      t.withoutBases := by
    obtain ⟨⟨name, base, properties, children⟩⟩ := t
    obtain ⟨rfl, rfl, rfl⟩ := ht.head
    rw [alter, Class.alter, withoutBases, Class.withoutBases, Class.withoutBasesAll_eq]
    rfl
  rw [merge, applyAll, apply, hdeclared, hroot]
  rfl

/-- Writing a merged tree loses nothing but the bases: the text parses, and merging what it is
parsed to into an empty tree gives the tree again. -/
theorem merge_text (texts : List String) (fragments : List (String × Forest)) (t : Tree)
    (hp : List.Forall₂ (fun text fragment => Fragment.parse text = .ok fragment.2) texts fragments)
    (hm : merge fragments = .ok t) : ∃ forest, Fragment.parse t.text = .ok forest ∧
      ∀ source, merge [(source, forest)] = .ok t.withoutBases := by
  have hforests : ∀ f ∈ fragments, Forest.Proper f.2 := by
    clear hm
    -- one text after the other, whatever they all merge to
    induction hp with
    | nil => simp
    | cons hparse _ ih => exact List.forall_mem_cons.mpr ⟨Fragment.proper_of_parse hparse, ih⟩
  have ht := proper_merge hforests hm
  obtain ⟨forest, hparse, hforest⟩ := Fragment.parse_text ht
  exact ⟨forest, hparse, merge_declarations ht hforest⟩

def settings : Tree :=
  let inner := Class.mk "Inner" none [⟨"names", .array [.text "say \"one\"", .text "two"]⟩] []
  ⟨⟨"", none, [], [⟨"Outer", none, [⟨"size", .scalar (.number "-1.50")⟩], [inner]⟩]⟩⟩

theorem proper_settings : settings.Proper := by
  have hinner : (Class.mk "Inner" none
      [⟨"names", .array [.text "say \"one\"", .text "two"]⟩] []).Proper :=
    .intro (by decide) (by simp) (by decide) (List.nodup_singleton _) (by simp) List.nodup_nil
  have houter : ∀ c ∈ settings.root.children, c.Proper := by
    refine List.forall_mem_singleton.mpr ?_
    exact .intro (by decide) (by simp) (by decide) (List.nodup_singleton _)
      (List.forall_mem_singleton.mpr hinner) (List.nodup_singleton _)
  exact ⟨⟨by simp [settings], List.nodup_nil, houter, List.nodup_singleton _⟩, rfl, rfl, rfl⟩

theorem merge_text_settings : ∃ forest,
    List.Forall₂ (fun text (fragment : String × Forest) => Fragment.parse text = .ok fragment.2)
      [settings.text] [("settings.cpp", forest)] ∧
    merge [("settings.cpp", forest)] = .ok settings ∧
    ∃ again, Fragment.parse settings.text = .ok again ∧
      ∀ source, merge [(source, again)] = .ok settings.withoutBases := by
  obtain ⟨forest, hparse, hforest⟩ := Fragment.parse_text proper_settings
  have hm : merge [("settings.cpp", forest)] = .ok settings :=
    (merge_declarations proper_settings hforest _).trans (by rfl)
  have hp : List.Forall₂ (fun text (fragment : String × Forest) =>
      Fragment.parse text = .ok fragment.2) [settings.text] [("settings.cpp", forest)] :=
    .cons hparse .nil
  exact ⟨forest, hp, hm, merge_text _ _ _ hp hm⟩

end Tree

end Overlay
