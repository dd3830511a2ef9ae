import Overlay.Proofs.Tree.Headings

namespace Overlay
open Attempt (bind_eq_ok pure_eq_ok)

namespace Class

variable {c d e : Class} {f : Class → Class}

theorem SameHead.refl (c : Class) : c.SameHead c := ⟨rfl, rfl, rfl⟩

theorem SameHead.trans (h : c.SameHead d) (h' : d.SameHead e) : c.SameHead e :=
  ⟨h.name.trans h'.name, h.base.trans h'.base, h.properties.trans h'.properties⟩

/-- Classes that differ in their children have the same values. -/
theorem SameHead.value (h : c.SameHead d) (key : String) : c.value? key = d.value? key := by
  rw [value?, value?, property?, property?, h.properties]

theorem sameHead_alter (hf : ∀ d : Class, (f d).SameHead d) (path : List String) (c : Class) :
    (c.alter f path).SameHead c := by
  cases path with
  | nil => exact hf c
  | cons key path => exact ⟨rfl, rfl, rfl⟩

theorem sameHead_admitBody (name : String) (base : Option String) (seed : Option Class)
    (ps : List Property) (level : Class) :
    (level.admitBody name base seed ps).SameHead level := ⟨rfl, rfl, rfl⟩

theorem sameHead_extend (more : List Class) (level : Class) :
    (extend more level).SameHead level := ⟨rfl, rfl, rfl⟩

theorem value_takeOver (c : Class) (base : Option String) (ps : List Property) (key : String) :
    (c.takeOver base ps).value? key =
      Property.settled (c.value? key) (Roster.bearing key ps) := by
  rw [takeOver, value_foldl_assign]
  rfl

/-- At a path that begins at another child, or that leads inside a child that is there, a level
shows what it showed before a body was taken over. -/
theorem at_admitBody_of_ne (level : Class) {name : String} (base : Option String)
    (seed : Option Class) (ps : List Property) {key : String} {rest : List String}
    (h : key = nameKey name → rest ≠ [] ∧ (level.child? key).isSome) :
    (level.admitBody name base seed ps).at? (key :: rest) = level.at? (key :: rest) := by
  rw [at?, at?, child_admitBody]
  split_ifs with hkey
  · obtain ⟨hrest, hsome⟩ := h hkey.symm
    obtain ⟨c, hc⟩ := Option.isSome_iff_exists.mp hsome
    obtain ⟨k, rest, rfl⟩ := List.exists_cons_of_ne_nil hrest
    rw [hc, Option.getD_some, Option.bind_some, Option.bind_some, at?, at?, child?, child?,
      children_takeOver]
  · rfl

end Class

namespace Tree

variable {t next : Tree} {h : Heading} {path : List String} {c level : Class}

theorem root_at_alter (t : Tree) (scope : List String) (f : Class → Class) (path : List String) :
    (t.alter scope f).at? path = (t.root.alter f scope).at? path := rfl

/-- Entering a body changes the level at which it stands, if the base is found. -/
theorem enter_eq_ok {scope : List String} {name : String} {base : Option String}
    {ps : List Property} : t.enter scope name base ps = .ok next ↔
      ∃ seed, t.seed scope name base = .ok seed ∧
        t.alter scope (fun level => level.admitBody name base seed ps) = next := by
  rw [enter, bind_eq_ok]
  exact exists_congr fun seed => and_congr_right fun _ => pure_eq_ok

/-- The class of a body takes over what the body says, as far as the class is there already. -/
theorem at_enter_self (hl : t.at? h.scope = some level)
    (he : t.enter h.scope h.name h.base h.properties = .ok next) :
    ∃ seed, t.seed h.scope h.name h.base = .ok seed ∧
      next.at? h.path = some (((level.child? (nameKey h.name)).getD
        (Class.seeded h.name seed)).takeOver h.base h.properties) := by
  obtain ⟨seed, hs, rfl⟩ := enter_eq_ok.mp he
  refine ⟨seed, hs, ?_⟩
  have hf := Class.sameHead_admitBody h.name h.base seed h.properties
  have hroot : t.root.at? h.scope = some level := hl
  rw [root_at_alter, Heading.path, Class.at_alter_below fun d => (hf d).name, hroot,
    Option.bind_some, Class.at?, Class.child_admitBody, if_pos rfl]
  rfl

/-- A path that does not lead to the class of the body, nor around it, shows what it showed before,
unless the class is new and the path leads into it. -/
theorem at_enter_elsewhere (he : t.enter h.scope h.name h.base h.properties = .ok next)
    (hn : ¬path <+: h.path) (hk : h.path <+: path → (t.at? h.path).isSome) :
    next.at? path = t.at? path := by
  obtain ⟨seed, _, rfl⟩ := enter_eq_ok.mp he
  have hf := Class.sameHead_admitBody h.name h.base seed h.properties
  rw [root_at_alter, at?]
  by_cases hs : h.scope <+: path
  · obtain ⟨rest, rfl⟩ := hs
    rw [Class.at_alter_below fun d => (hf d).name, Class.at_append]
    cases hl : t.root.at? h.scope with
    | none => rfl
    | some level =>
      cases rest with
      | nil =>
        rw [List.append_nil] at hn
        exact absurd h.scope_prefix_path hn
      | cons key rest =>
        apply Class.at_admitBody_of_ne
        -- under the key of the body, the class is not new
        rintro rfl
        have hbelow : h.path <+: h.scope ++ nameKey h.name :: rest :=
          ⟨rest, by rw [Heading.path, List.append_assoc]; rfl⟩
        refine ⟨?_, ?_⟩
        · rintro rfl
          exact hn List.prefix_rfl
        · have hsome := hk hbelow
          rw [at?, Heading.path, Class.at_append, hl, Option.bind_some, Class.at?] at hsome
          exact Option.isSome_of_isSome_bind hsome
  · have hs' : ¬path <+: h.scope := fun hp => hn (hp.trans h.scope_prefix_path)
    exact Class.at_alter_apart (fun d => (hf d).name) hs hs' _

/-- A class that is there keeps its name, its base and its properties, if the body is of another. -/
theorem sameHead_enter (he : t.enter h.scope h.name h.base h.properties = .ok next)
    (hc : t.at? path = some c) (hp : h.path ≠ path) :
    ∃ d, next.at? path = some d ∧ d.SameHead c := by
  by_cases hpre : path <+: h.path
  · -- around the class of the body
    obtain ⟨rest, hrest⟩ := Heading.prefix_scope_of_ne hpre hp
    obtain ⟨seed, _, rfl⟩ := enter_eq_ok.mp he
    have hf := Class.sameHead_admitBody h.name h.base seed h.properties
    have hroot : t.root.at? path = some c := hc
    rw [root_at_alter, ← hrest, Class.at_alter_above fun d => (hf d).name, hroot]
    exact ⟨_, rfl, Class.sameHead_alter hf rest c⟩
  · have hsame : next.at? path = t.at? path := by
      apply at_enter_elsewhere he hpre
      intro hbelow
      exact Class.isSome_at_of_prefix hbelow (Option.isSome_of_eq_some hc)
    exact ⟨c, hsame.trans hc, .refl c⟩

theorem isSome_of_grows (hg : t.root.Grows next.root) (hs : (t.at? path).isSome) :
    (next.at? path).isSome := by
  obtain ⟨c, hc⟩ := Option.isSome_iff_exists.mp hs
  obtain ⟨d, hd, _⟩ := hg path c hc
  exact Option.isSome_of_eq_some hd

/-- Where a body has been entered, there is its class. -/
theorem isSome_enter_self (hl : (t.at? h.scope).isSome)
    (he : t.enter h.scope h.name h.base h.properties = .ok next) : (next.at? h.path).isSome := by
  obtain ⟨level, hl⟩ := Option.isSome_iff_exists.mp hl
  obtain ⟨seed, _, hself⟩ := at_enter_self hl he
  exact Option.isSome_of_eq_some hself

/-- Bodies are entered one after the other as long as each succeeds. -/
theorem result_advance_cons (t : Tree) (h : Heading) (hs : List Heading) :
    (t.advance (h :: hs)).result =
      t.enter h.scope h.name h.base h.properties >>= fun next => (next.advance hs).result := by
  rw [advance]
  cases t.enter h.scope h.name h.base h.properties <;> rfl

theorem tree_of_result {hs : List Heading} (ha : (t.advance hs).result = .ok next) :
    (t.advance hs).tree = next := by
  rw [Advance.result] at ha
  split at ha
  · exact Except.ok.inj ha
  · simp at ha

theorem apply_eq_ok {source : String} {forest : Forest} :
    t.apply source forest = .ok next ↔
      (t.advance (Declaration.headingsOfAll [] forest)).result = .ok next := by
  rw [apply_eq_attempt, attempt]
  cases (t.advance (Declaration.headingsOfAll [] forest)).result <;> simp [Except.mapError]

variable {hs : List Heading}

theorem at_advance_elsewhere (hn : ∀ h ∈ hs, ¬path <+: h.path)
    (hk : ∀ h ∈ hs, h.path <+: path → (t.at? h.path).isSome) :
    (t.advance hs).tree.at? path = t.at? path := by
  induction hs generalizing t with
  | nil => rfl
  | cons h hs ih =>
    obtain ⟨hn, hns⟩ := List.forall_mem_cons.mp hn
    obtain ⟨hk, hks⟩ := List.forall_mem_cons.mp hk
    rw [advance]
    split
    · rename_i next he
      rw [ih hns fun h hm hp => isSome_of_grows (grows_enter he) (hks h hm hp)]
      exact at_enter_elsewhere he hn hk
    · rfl

/-- The head of a class stays as long as none of its own bodies is entered. -/
theorem sameHead_advance (hc : t.at? path = some c) (hp : ∀ h ∈ hs, h.path ≠ path) :
    ∃ d, (t.advance hs).tree.at? path = some d ∧ d.SameHead c := by
  induction hs generalizing t c with
  | nil => exact ⟨c, hc, .refl c⟩
  | cons h hs ih =>
    obtain ⟨hp, hps⟩ := List.forall_mem_cons.mp hp
    rw [advance]
    split
    · rename_i next he
      obtain ⟨d, hd, hdc⟩ := sameHead_enter he hc hp
      obtain ⟨e, he, hed⟩ := ih hd hps
      exact ⟨e, he, hed.trans hdc⟩
    · exact ⟨c, hc, .refl c⟩

/-- Whenever a body is entered, the class at its scope is there. -/
theorem isSome_scope {known : List (List String)} {before after : List Heading} {mid : Tree}
    (hk : ∀ path ∈ known, (t.at? path).isSome) (hn : Heading.Nested known (before ++ h :: after))
    (ha : (t.advance before).result = .ok mid) : (mid.at? h.scope).isSome := by
  induction before generalizing t known with
  | nil =>
    obtain rfl := Except.ok.inj ha
    exact hk _ hn.1
  | cons first before ih =>
    obtain ⟨hscope, hrest⟩ := hn
    rw [result_advance_cons] at ha
    obtain ⟨next, he, ha⟩ := bind_eq_ok.mp ha
    refine ih (List.forall_mem_cons.mpr ⟨isSome_enter_self (hk _ hscope) he, ?_⟩) hrest ha
    exact fun path hp => isSome_of_grows (grows_enter he) (hk path hp)

end Tree

end Overlay
