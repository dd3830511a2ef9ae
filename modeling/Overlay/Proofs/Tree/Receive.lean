import Overlay.Proofs.Fragment
import Overlay.Proofs.Fragment.Fold
import Overlay.Proofs.Tree.Declared
import Overlay.Proofs.Tree.Front

namespace Overlay

namespace Roster

variable {α β : Type} [Named α] [Named β] {members : List α} {x y : α} {f g : α → α} {key : String}

/-- What is done to a member can be done to it before or after others have been joined to it. -/
theorem change_absorb (hx : keyOf x = key) (hf : ∀ a ∈ members, keyOf (f a) = keyOf a)
    (hg : keyOf (g x) = keyOf x) :
    change key g (absorb f x members) = absorb (fun a => g (f a)) (g x) members := by
  induction members with
  | nil => rw [absorb, absorb, change, if_pos hx]
  | cons a as ih =>
    obtain ⟨hfa, hfas⟩ := List.forall_mem_cons.mp hf
    by_cases ha : keyOf a = keyOf x
    · rw [absorb, if_pos ha, absorb, if_pos (ha.trans hg.symm), change,
        if_pos (hfa.trans (ha.trans hx))]
    · have hgx : keyOf a ≠ keyOf (g x) := fun h => ha (h.trans hg)
      rw [absorb, if_neg ha, absorb, if_neg hgx, change, if_neg fun h => ha (h.trans hx.symm),
        ih hfas]

/-- A newcomer and a change elsewhere do not get in each other's way. -/
theorem change_absorb_comm (hk : key ∈ keys members) (hx : keyOf x ≠ key)
    (hf : ∀ a ∈ members, keyOf (f a) = keyOf a) (hg : ∀ a ∈ members, keyOf (g a) = keyOf a) :
    change key g (absorb f x members) = absorb f x (change key g members) := by
  induction members with
  | nil => simp [keys] at hk
  | cons a as ih =>
    obtain ⟨hfa, hfas⟩ := List.forall_mem_cons.mp hf
    obtain ⟨hga, hgas⟩ := List.forall_mem_cons.mp hg
    by_cases hax : keyOf a = keyOf x
    · have hne : keyOf a ≠ key := fun h => hx (hax.symm.trans h)
      rw [absorb, if_pos hax, change, if_neg (hfa.symm ▸ hne), change, if_neg hne, absorb,
        if_pos hax]
    · by_cases hak : keyOf a = key
      · rw [absorb, if_neg hax, change, if_pos hak, change, if_pos hak, absorb,
          if_neg (hga.symm ▸ hax)]
      · have hrest : key ∈ keys as := by
          rw [keys, List.map_cons, List.mem_cons] at hk
          exact hk.resolve_left (Ne.symm hak)
        rw [absorb, if_neg hax, change, if_neg hak, change, if_neg hak, absorb, if_neg hax,
          ih hrest hfas hgas]

theorem key_mem_absorb (hf : ∀ a ∈ members, keyOf (f a) = keyOf a) (hk : key ∈ keys members) :
    key ∈ keys (absorb f x members) := by
  rw [keys_absorb fun a ha hx => (hf a ha).trans hx]
  split_ifs
  · exact hk
  · exact List.mem_append_left _ hk

section Newcomers

variable {n : β → α} {u : β → α → α} {newcomers : List β}

omit [Named β] in
theorem key_mem_foldl_absorb (ha : ∀ b a, keyOf (u b a) = keyOf a) (hk : key ∈ keys members) :
    key ∈ keys (newcomers.foldl (fun all b => absorb (u b) (n b) all) members) := by
  induction newcomers generalizing members with
  | nil => exact hk
  | cons b bs ih => exact ih (key_mem_absorb (fun a _ => ha b a) hk)

theorem change_foldl_absorb (hn : ∀ b, keyOf (n b) = keyOf b)
    (ha : ∀ b a, keyOf (u b a) = keyOf a) (hg : ∀ a, keyOf (g a) = keyOf a)
    (hk : key ∈ keys members) (hb : key ∉ keys newcomers) :
    change key g (newcomers.foldl (fun all b => absorb (u b) (n b) all) members) =
      newcomers.foldl (fun all b => absorb (u b) (n b) all) (change key g members) := by
  induction newcomers generalizing members with
  | nil => rfl
  | cons b bs ih =>
    rw [keys, List.map_cons, List.mem_cons, not_or] at hb
    have hne : keyOf (n b) ≠ key := fun h => hb.1 (h.symm.trans (hn b))
    rw [List.foldl_cons, List.foldl_cons, ih (key_mem_absorb (fun a _ => ha b a) hk) hb.2,
      change_absorb_comm hk hne (fun a _ => ha b a) fun a _ => hg a]

/-- Newcomers join a roster one after the other. To join one more at the end is the same as to join
it to the newcomer of its key in the first place, if there the two do what they do in a row. -/
theorem foldl_absorb_joined {j : β → β} {d : β} (hn : ∀ b, keyOf (n b) = keyOf b)
    (ha : ∀ b a, keyOf (u b a) = keyOf a)
    (hact : ∀ b ∈ newcomers, keyOf b = keyOf d → ∀ a, u (j b) a = u d (u b a))
    (hnew : ∀ b ∈ newcomers, keyOf b = keyOf d → n (j b) = u d (n b))
    (hk : (keys newcomers).Nodup) (members : List α) :
    (absorb j d newcomers).foldl (fun all b => absorb (u b) (n b) all) members =
      absorb (u d) (n d)
        (newcomers.foldl (fun all b => absorb (u b) (n b) all) members) := by
  induction newcomers generalizing members with
  | nil => rfl
  | cons b bs ih =>
    obtain ⟨hactb, hacts⟩ := List.forall_mem_cons.mp hact
    obtain ⟨hnewb, hnews⟩ := List.forall_mem_cons.mp hnew
    obtain ⟨hb, hbs⟩ := List.nodup_cons.mp hk
    rw [absorb]
    split_ifs with hkey
    · -- the two meet at once, and none of the other newcomers has anything to do with them
      have hnewkey : keyOf (n b) = keyOf (n d) := by rw [hn, hn, hkey]
      have hthere : keyOf (n d) ∈ keys (absorb (u b) (n b) members) := by
        rw [keys_absorb fun a _ hx => (ha b a).trans hx, hnewkey]
        split_ifs with hm
        · exact hm
        · exact List.mem_append_right _ (List.mem_singleton_self _)
      have hothers : keyOf (n d) ∉ keys bs := by rwa [hn, ← hkey]
      have hboth : absorb (u (j b)) (n (j b)) members =
          change (keyOf (n d)) (u d) (absorb (u b) (n b) members) := by
        rw [change_absorb hnewkey (fun a _ => ha b a) (ha d _), hnewb hkey, funext (hactb hkey)]
      rw [List.foldl_cons, List.foldl_cons, absorb_of_known (key_mem_foldl_absorb ha hthere),
        change_foldl_absorb hn ha (ha d) hthere hothers, hboth]
    · rw [List.foldl_cons, List.foldl_cons]
      exact ih hacts hnews hbs _

end Newcomers

end Roster

namespace Class

def enrol (level : Class) (name : String) (f : Class → Class) : Class :=
  { level with children := Roster.absorb f (f (empty name)) level.children }

mutual

def receive (level : Class) : Declaration → Class
  | .forward _ _ => level
  | .body name _ properties children _ =>
    level.enrol name fun c => receiveAll (c.takeOver none properties) children

def receiveAll (level : Class) : List Declaration → Class
  | [] => level
  | d :: ds => receiveAll (receive level d) ds

end

variable {level c : Class} {f g : Class → Class} {name : String}

theorem name_receive (level : Class) (d : Declaration) : (level.receive d).name = level.name := by
  cases d <;> rw [receive]
  rfl

theorem name_receiveAll (level : Class) (ds : List Declaration) :
    (level.receiveAll ds).name = level.name := by
  induction ds generalizing level with
  | nil => rw [receiveAll]
  | cons d ds ih => rw [receiveAll, ih, name_receive]

/-- What is done next in the child that has taken over something can be taken over with it. -/
theorem alter_enrol (hf : ∀ c : Class, (f c).name = c.name) (hg : ∀ c : Class, (g c).name = c.name)
    (level : Class) (name : String) :
    (level.enrol name f).alter g [nameKey name] = level.enrol name fun c => g (f c) := by
  have hkey (h : Class → Class) (hh : ∀ c : Class, (h c).name = c.name) (c : Class) :
      keyOf (h c) = keyOf c := congrArg nameKey (hh c)
  have hchange := Roster.change_absorb (x := f (empty name)) (hkey f hf (empty name))
    (fun a (_ : a ∈ level.children) => hkey f hf a) (hkey g hg (f (empty name)))
  exact congrArg (fun children => { level with children := children }) hchange

end Class

namespace Tree

variable {t : Tree} {scope : List String}

theorem declareAll_received_of {ds : List Declaration}
    (hd : ∀ d ∈ ds, ∀ (t : Tree) (scope : List String),
      t.declare scope d = .ok (t.alter scope fun level => level.receive d))
    (t : Tree) (scope : List String) :
    t.declareAll scope ds = .ok (t.alter scope fun level => level.receiveAll ds) := by
  induction ds generalizing t with
  | nil =>
    have hsame : (fun level : Class => level.receiveAll []) = fun level => level :=
      funext fun level => by rw [Class.receiveAll]
    rw [declareAll, hsame, alter, Class.alter_self]
  | cons d ds ih =>
    obtain ⟨hfirst, hrest⟩ := List.forall_mem_cons.mp hd
    have hboth : (fun level : Class => level.receiveAll (d :: ds)) =
        fun level => (level.receive d).receiveAll ds :=
      funext fun level => by rw [Class.receiveAll]
    have hname (level : Class) : (level.receive d).name = level.name := level.name_receive d
    rw [declareAll, hfirst, hboth]
    refine (ih hrest (t.alter scope fun level => level.receive d)).trans ?_
    rw [alter, alter, alter, Class.alter_alter hname]

/-- To merge a declaration without bases at a scope is to change the class that is there. -/
theorem declare_received {d : Declaration} (hd : d.BaseFree) (t : Tree) (scope : List String) :
    t.declare scope d = .ok (t.alter scope fun level => level.receive d) := by
  induction hd generalizing t scope with
  | @forward name position =>
    have hsame : (fun level : Class => level.receive (.forward name position)) =
        fun level => level := funext fun level => by rw [Class.receive]
    rw [declare, hsame, alter, Class.alter_self]
  | @body name ps children position _ ih =>
    have hhead (c : Class) : (c.takeOver none ps).name = c.name :=
      (Class.head_of_takeOver c none ps).1
    have henrol (level : Class) : (level.enrol name fun c => c.takeOver none ps).name =
        level.name := rfl
    have henter : t.enter scope name none ps =
        .ok (t.alter scope fun level => level.enrol name fun c => c.takeOver none ps) := rfl
    have hboth : (fun level : Class => level.receive (.body name none ps children position)) =
        fun level => (level.enrol name fun c => c.takeOver none ps).alter
          (fun c => c.receiveAll children) [nameKey name] := by
      funext level
      rw [Class.receive, Class.alter_enrol hhead fun c => c.name_receiveAll children]
    rw [declare, henter, hboth]
    refine (declareAll_received_of ih _ (scope ++ [nameKey name])).trans ?_
    rw [alter, alter, alter, Class.alter_append, Class.alter_alter henrol]

/-- To merge a fragment without bases is to change the root. -/
theorem apply_received {source : String} {forest : Forest} (hf : ∀ d ∈ forest, d.BaseFree)
    (t : Tree) : t.apply source forest = .ok ⟨t.root.receiveAll forest⟩ := by
  rw [apply, declareAll_received_of fun d hd t scope => declare_received (hf d hd) t scope]
  rfl

end Tree

namespace Property

variable {p e : Property} {scalar : Prop} {ps : List Property}

/-- A declaration of a property to which scalars may be assigned, or else elements appended, but not
both. -/
structure Steady (scalar : Prop) (p : Property) : Prop where
  assigns : p.value.isArray = false → scalar
  appends : p.append = true → ¬scalar

/-- Joining a declaration updates the value as a class would. -/
theorem value_join (p e : Property) : (p.join e).value = e.value.update p.append p.value := by
  unfold join Value.update
  cases p.append <;> cases e.value <;> cases p.value <;> rfl

theorem steady_join (hp : p.Steady scalar) (he : e.Steady scalar) : (p.join e).Steady scalar := by
  unfold join
  split
  · exact ⟨fun h => absurd h (by simp [Value.isArray]), he.appends⟩
  · exact ⟨hp.assigns, hp.appends⟩

/-- The two ways in which a value is declared do not mix, so that it does not matter whether they
are joined before they come to an older value. -/
theorem update_join (hp : p.Steady scalar) (he : e.Steady scalar) (v : Value) :
    v.update (p.join e).append (p.join e).value =
      (v.update e.append e.value).update p.append p.value := by
  cases ha : p.append with
  | false => simp [join, Value.update, ha]
  | true =>
    cases hv : e.value with
    | scalar s =>
      have hscalar : scalar := he.assigns (by rw [hv]; rfl)
      exact absurd hscalar (hp.appends ha)
    | array items =>
      cases hm : p.value with
      | scalar s =>
        have hscalar : scalar := hp.assigns (by rw [hm]; rfl)
        exact absurd hscalar (hp.appends ha)
      | array more =>
        cases hb : e.append <;> cases v <;> simp [join, Value.update, ha, hv, hm, hb]

theorem nodup_fold (hk : (Roster.keys ps).Nodup) : (Roster.keys (fold ps p)).Nodup :=
  Roster.nodup_absorb (fun e _ hkey => (congrArg nameKey (name_join p e)).trans hkey) hk

end Property

namespace Class

/-- To fold a declaration into others is to take it over behind them. -/
theorem assign_folded {S : String → Prop} {ps : List Property} {p : Property}
    (hps : ∀ e ∈ ps, e.Steady (S (keyOf e))) (hk : (Roster.keys ps).Nodup)
    (hp : p.Steady (S (keyOf p))) (c : Class) :
    (Property.fold ps p).foldl assign c = (ps.foldl assign c).assign p := by
  have hproperties := Roster.foldl_absorb_joined (α := Member) (β := Property)
    (n := fun p => ⟨p.name, p.value⟩) (u := fun p m => m.update p) (j := p.join) (d := p)
    (fun _ => rfl) (fun _ _ => rfl)
    (fun e he hkey m => congrArg (Member.mk m.name)
      (Property.update_join (hkey ▸ hp) (hps e he) m.value))
    (fun e _ _ => by
      rw [Property.name_join, Property.value_join]
      rfl) hk c.properties
  rw [foldl_assign, foldl_assign, assign]
  exact congrArg (fun all => { c with properties := all }) hproperties

end Class

namespace Class

variable {c level : Class}

/-- Takes over what a declaration says of its own class. -/
def fill (c : Class) (d : Declaration) : Class :=
  (c.takeOver none d.properties).receiveAll d.children

theorem name_fill (c : Class) (d : Declaration) : (c.fill d).name = c.name :=
  (name_receiveAll _ d.children).trans (head_of_takeOver c none d.properties).1

theorem takeOver_none (c : Class) (ps : List Property) :
    c.takeOver none ps = ps.foldl assign c := by
  cases c
  rfl

theorem receive_eq {d : Declaration} (hd : d.isForward = false) (level : Class) :
    level.receive d = level.enrol d.name fun c => c.fill d := by
  cases d with
  | forward => simp [Declaration.isForward] at hd
  | body => rw [receive]; rfl

/-- Properties and children do not get in each other's way. -/
theorem assign_receiveAll (level : Class) (ds : List Declaration) (ps : List Property) :
    ps.foldl assign (level.receiveAll ds) = (ps.foldl assign level).receiveAll ds := by
  induction ds generalizing level with
  | nil => rw [receiveAll, receiveAll]
  | cons d ds ih =>
    have hone : ps.foldl assign (level.receive d) = (ps.foldl assign level).receive d := by
      rw [foldl_assign, foldl_assign]
      cases d <;> rw [receive, receive]
      rfl
    rw [receiveAll, ih, receiveAll, hone]

theorem children_receiveAll {ds : List Declaration} (hd : ∀ d ∈ ds, d.isForward = false)
    (level : Class) : level.receiveAll ds = { level with
      children := ds.foldl
        (fun all d => Roster.absorb (fun c => c.fill d) ((empty d.name).fill d) all)
        level.children } := by
  induction ds generalizing level with
  | nil =>
    rw [receiveAll]
    cases level
    rfl
  | cons d ds ih =>
    obtain ⟨hfirst, hrest⟩ := List.forall_mem_cons.mp hd
    rw [receiveAll, ih hrest, receive_eq hfirst]
    rfl

end Class

namespace Declaration

variable {S : List String → String → Prop} {scope : List String} {d e : Declaration}
  {siblings ds : List Declaration}

/-- A body at a scope, in order and without bases and announcements, in which every property is one
to which scalars are assigned, or else one to which elements are appended, or none of the two. -/
inductive Steady (S : List String → String → Prop) : List String → Declaration → Prop
  | body {scope : List String} {name : String} {properties : List Property}
      {children : List Declaration} {position : Text.Position}
      (hp : ∀ p ∈ properties, p.Steady (S (scope ++ [nameKey name]) (keyOf p)))
      (hpk : (Roster.keys properties).Nodup)
      (hc : ∀ d ∈ children, Steady S (scope ++ [nameKey name]) d)
      (hck : (Roster.keys children).Nodup) :
      Steady S scope (.body name none properties children position)

structure AllSteady (S : List String → String → Prop) (scope : List String)
    (ds : List Declaration) : Prop where
  all : ∀ d ∈ ds, d.Steady S scope
  keys : (Roster.keys ds).Nodup

theorem Steady.not_forward (h : d.Steady S scope) : d.isForward = false := by
  cases h
  rfl

theorem Steady.baseFree (h : d.Steady S scope) : d.BaseFree := by
  induction h with
  | body _ _ _ _ ih => exact .body ih

/-- To join a declaration to an earlier one of the same class is to fill the class with the one and
then with the other. -/
def Joins (S : List String → String → Prop) (scope : List String) (d : Declaration) : Prop :=
  ∀ e : Declaration, e.Steady S scope → keyOf e = keyOf d →
    (e.join d).Steady S scope ∧ ∀ c : Class, c.fill (e.join d) = (c.fill e).fill d

theorem name_join_of_body (he : e.isForward = false) : (e.join d).name = e.name := by
  cases e with
  | forward => simp [isForward] at he
  | body => cases d <;> rw [join]; rfl

/-- Folding a declaration into its siblings is receiving it after them. -/
theorem fold_of_joins (hd : d.Steady S scope) (hj : d.Joins S scope)
    (hs : AllSteady S scope siblings) : AllSteady S scope (fold siblings d) ∧
      ∀ level : Class, level.receiveAll (fold siblings d) =
        (level.receiveAll siblings).receive d := by
  have hall : AllSteady S scope (fold siblings d) :=
    ⟨Roster.forall_absorb hs.all hd fun e _ hkey he => (hj e he hkey).1,
      Roster.nodup_absorb (fun _ _ hkey => keyOf_join hkey) hs.keys⟩
  refine ⟨hall, fun level => ?_⟩
  have hkey (d : Declaration) (c : Class) : keyOf (c.fill d) = keyOf c :=
    congrArg nameKey (c.name_fill d)
  have hchildren := Roster.foldl_absorb_joined (α := Class) (β := Declaration)
    (n := fun d => (Class.empty d.name).fill d) (u := fun d c => c.fill d)
    (j := fun e => e.join d) (d := d) (fun d => hkey d (Class.empty d.name)) hkey
    (fun e he hek => (hj e (hs.all e he) hek).2)
    (fun e he hek => by
      rw [name_join_of_body (hs.all e he).not_forward]
      exact (hj e (hs.all e he) hek).2 _) hs.keys level.children
  rw [Class.children_receiveAll fun e he => (hall.all e he).not_forward,
    Class.children_receiveAll fun e he => (hs.all e he).not_forward,
    Class.receive_eq hd.not_forward, fold, hchildren]
  rfl

theorem foldAll_of_joins (hd : ∀ d ∈ ds, d.Steady S scope ∧ d.Joins S scope)
    (hs : AllSteady S scope siblings) : AllSteady S scope (foldAll siblings ds) ∧
      ∀ level : Class, level.receiveAll (foldAll siblings ds) =
        (level.receiveAll siblings).receiveAll ds := by
  rw [foldAll_eq_foldl]
  induction ds generalizing siblings with
  | nil => exact ⟨hs, fun level => by rw [List.foldl_nil, Class.receiveAll]⟩
  | cons d ds ih =>
    obtain ⟨⟨hfirst, hjoins⟩, hrest⟩ := List.forall_mem_cons.mp hd
    obtain ⟨hfolded, hone⟩ := fold_of_joins hfirst hjoins hs
    obtain ⟨hall, hmany⟩ := ih hrest hfolded
    refine ⟨hall, fun level => ?_⟩
    rw [List.foldl_cons, hmany, hone, Class.receiveAll]

theorem steady_properties {S : String → Prop} {ps more : List Property}
    (hps : ∀ p ∈ ps, p.Steady (S (keyOf p))) (hk : (Roster.keys ps).Nodup)
    (hmore : ∀ p ∈ more, p.Steady (S (keyOf p))) :
    (∀ p ∈ more.foldl Property.fold ps, p.Steady (S (keyOf p))) ∧
      (Roster.keys (more.foldl Property.fold ps)).Nodup ∧
      ∀ c : Class, (more.foldl Property.fold ps).foldl Class.assign c =
        more.foldl Class.assign (ps.foldl Class.assign c) := by
  induction more generalizing ps with
  | nil => exact ⟨hps, hk, fun _ => rfl⟩
  | cons p more ih =>
    obtain ⟨hp, hrest⟩ := List.forall_mem_cons.mp hmore
    have hfolded : ∀ q ∈ Property.fold ps p, q.Steady (S (keyOf q)) := by
      apply Roster.forall_absorb hps hp
      intro q _ hkey hq
      have hname : keyOf (p.join q) = keyOf q := congrArg nameKey (Property.name_join p q)
      rw [hname]
      exact Property.steady_join (hkey ▸ hp) hq
    obtain ⟨hall, hnodup, hassign⟩ := ih hfolded (Property.nodup_fold hk) hrest
    refine ⟨hall, hnodup, fun c => ?_⟩
    rw [List.foldl_cons, hassign, Class.assign_folded hps hk hp, List.foldl_cons]

/-- Steady declarations can be joined before they are received. The induction goes along the
children. -/
theorem joins_of_steady (hd : d.Steady S scope) : d.Joins S scope := by
  -- on the later declaration, whose children are folded into those of the earlier one
  induction hd with
  | @body scope name ps children position hp hpk hc hck ih =>
    intro e he hkey
    cases he with
    | @body _ name₀ ps₀ children₀ position₀ hp₀ hpk₀ hc₀ hck₀ =>
      have hsame : nameKey name₀ = nameKey name := hkey
      rw [hsame] at hp₀ hc₀
      obtain ⟨hproperties, hnodup, hassign⟩ := steady_properties hp₀ hpk₀ hp
      obtain ⟨hchildren, hreceive⟩ := foldAll_of_joins (fun d hd => ⟨hc d hd, ih d hd⟩)
        ⟨hc₀, hck₀⟩
      refine ⟨?_, fun c => ?_⟩
      · rw [join]
        refine .body ?_ hnodup ?_ hchildren.keys
        · rwa [hsame]
        · rw [hsame]
          exact hchildren.all
      · rw [join]
        simp only [Class.fill, Declaration.properties, Declaration.children, hreceive,
          Class.takeOver_none, Class.assign_receiveAll, hassign]

/-- To fold a declaration into its siblings and to merge them all is to merge the siblings first and
the declaration after them. -/
theorem receiveAll_folded (hd : d.Steady S scope) (hs : AllSteady S scope siblings) :
    AllSteady S scope (fold siblings d) ∧ ∀ level : Class,
      level.receiveAll (fold siblings d) = (level.receiveAll siblings).receive d :=
  fold_of_joins hd (joins_of_steady hd) hs

end Declaration

end Overlay
