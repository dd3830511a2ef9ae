import Mathlib
import Overlay.Proofs.Tree.Derivation
import Overlay.Proofs.Tree.Front

/-! Merging the same fragments once more. By then every class is there, so that each body is taken
over by its class, and every base is found that was found before. A class that goes through its
bodies again ends up as it was: if nothing is appended, what counts for a property is the last body
that declares it, and all of its properties are in their places already. -/
namespace Overlay
open Attempt (bind_eq_ok)

namespace Roster

theorem foldl_enlist_of_known {known more : List String}
    (h : ∀ name ∈ more, nameKey name ∈ known.map nameKey) : more.foldl enlist known = known := by
  induction more with
  | nil => rfl
  | cons name more ih =>
    obtain ⟨hname, hmore⟩ := List.forall_mem_cons.mp h
    rw [List.foldl_cons, enlist, if_pos hname, ih hmore]

end Roster

namespace Heading

/-- Holds of a body that appends nothing. -/
def Plain (h : Heading) : Prop := ∀ p ∈ h.properties, p.append = false

def ofClass (path : List String) (hs : List Heading) : List Heading :=
  hs.filter fun h => h.path = path

variable {path : List String} {h : Heading} {hs : List Heading}

theorem ofClass_cons (path : List String) (h : Heading) (hs : List Heading) :
    ofClass path (h :: hs) = if h.path = path then h :: ofClass path hs else ofClass path hs := by
  by_cases hp : h.path = path <;> simp [ofClass, hp]

theorem ofClass_snoc (path : List String) (hs : List Heading) (h : Heading) :
    ofClass path (hs ++ [h]) = ofClass path hs ++ if h.path = path then [h] else [] := by
  rw [ofClass, List.filter_append, ← ofClass, ← ofClass, ofClass_cons]
  rfl

theorem ofClass_eq_nil (hn : ∀ h ∈ hs, h.path ≠ path) : ofClass path hs = [] := by
  rw [ofClass, List.filter_eq_nil_iff]
  simpa using hn

end Heading

namespace Class

variable {c d : Class} {h : Heading} {hs : List Heading}

/-- Takes over what some bodies of a class say, one after the other. -/
def revise (c : Class) (hs : List Heading) : Class :=
  hs.foldl (fun c h => c.takeOver h.base h.properties) c

theorem revise_eq (c : Class) (hs : List Heading) :
    c.revise hs = (hs.flatMap Heading.properties).foldl assign
      { c with base := hs.foldl (fun base h => h.base <|> base) c.base } := by
  induction hs generalizing c with
  | nil => cases c; rfl
  | cons h hs ih =>
    rw [revise, List.foldl_cons, ← revise, ih, List.flatMap_cons, List.foldl_append]
    have hbase (base : Option String) : { c.takeOver h.base h.properties with base := base } =
        h.properties.foldl assign { c with base := base } := by
      rw [takeOver, foldl_assign, foldl_assign]
    rw [hbase, (head_of_takeOver c h.base h.properties).2]
    rfl

theorem head_of_revise (c : Class) (hs : List Heading) : (c.revise hs).name = c.name ∧
    (c.revise hs).base = hs.foldl (fun base h => h.base <|> base) c.base ∧
    (c.revise hs).children = c.children := by
  rw [revise_eq, foldl_assign]
  exact ⟨rfl, rfl, rfl⟩

/-- Going through bodies again enlists their names once more. -/
theorem names_revise (c : Class) (hs : List Heading) : Roster.names (c.revise hs).properties =
    (Roster.names (hs.flatMap Heading.properties)).foldl Roster.enlist
      (Roster.names c.properties) := by
  rw [revise_eq, names_foldl_assign]

/-- Going through bodies again settles a property by their declarations. -/
theorem value_revise (c : Class) (hs : List Heading) (key : String) : (c.revise hs).value? key =
    Property.settled (c.value? key) (Roster.bearing key (hs.flatMap Heading.properties)) := by
  rw [revise_eq, value_foldl_assign]
  rfl

theorem front_revise (c : Class) (hs : List Heading) :
    (c.revise hs).front = c.front.revise hs := by
  induction hs generalizing c with
  | nil => rfl
  | cons h hs ih =>
    rw [revise, List.foldl_cons, ← revise, ih, front_takeOver]
    rfl

/-- What is inside the children does not matter to the bodies of a class. -/
theorem revise_of_sameHead (hd : d.SameHead c) (hc : c.revise hs = c) : d.revise hs = d := by
  have hbase := congrArg Class.base hc
  have hproperties := congrArg Class.properties hc
  rw [revise_eq, foldl_assign] at hbase hproperties ⊢
  dsimp only at hbase hproperties ⊢
  rw [hd.base, hd.properties, hbase, hproperties, ← hd.base, ← hd.properties]
  cases d
  rfl

/-- Two classes are the same if their heads and children are, and their properties in order and
value. -/
theorem eq_of_values (hn : c.name = d.name) (hb : c.base = d.base) (hc : c.children = d.children)
    (hp : Roster.names c.properties = Roster.names d.properties)
    (hk : (Roster.keys c.properties).Nodup) (hv : ∀ key, c.value? key = d.value? key) : c = d := by
  have hproperties : c.properties = d.properties := Roster.eq_of_names hp hk hv
  cases c
  cases d
  rw [Class.mk.injEq]
  exact ⟨hn, hb, hproperties, hc⟩

theorem base_again (hc : c.revise hs = c) :
    ((c.takeOver h.base h.properties).revise (hs ++ [h])).base =
      (c.takeOver h.base h.properties).base := by
  have hcbase := (head_of_revise c hs).2.1
  rw [hc] at hcbase
  rw [(head_of_revise _ _).2.1, (head_of_takeOver c h.base h.properties).2, List.foldl_append,
    List.foldl_cons, List.foldl_nil]
  -- the last body counts if it names a base, and does not matter otherwise
  cases hb : h.base with
  | some base => rfl
  | none => exact hcbase.symm

theorem names_again (hc : c.revise hs = c) :
    Roster.names ((c.takeOver h.base h.properties).revise (hs ++ [h])).properties =
      Roster.names (c.takeOver h.base h.properties).properties := by
  have hall : Roster.names ((hs ++ [h]).flatMap Heading.properties) =
      Roster.names (hs.flatMap Heading.properties) ++ Roster.names h.properties := by
    rw [List.flatMap_append, List.flatMap_singleton]
    exact List.map_append
  rw [names_revise, hall]
  apply Roster.foldl_enlist_of_known
  intro name hm
  rw [takeOver, names_foldl_assign, Roster.key_mem_foldl_enlist]
  rcases List.mem_append.mp hm with hm | hm
  · -- the bodies in front leave the class as it is, so their properties are in place already
    left
    change nameKey name ∈ (Roster.names c.properties).map nameKey
    rw [← hc, names_revise, Roster.key_mem_foldl_enlist]
    exact .inr (List.mem_map_of_mem hm)
  · exact .inr (List.mem_map_of_mem hm)

/-- What counts for a property is the last body that declares it, the first time and again. -/
theorem value_again (hc : c.revise hs = c) (hp : h.Plain) (key : String) :
    ((c.takeOver h.base h.properties).revise (hs ++ [h])).value? key =
      (c.takeOver h.base h.properties).value? key := by
  have hcvalue := value_revise c hs key
  rw [hc] at hcvalue
  rw [value_revise, value_takeOver, List.flatMap_append, List.flatMap_singleton,
    Roster.bearing_append, Property.settled_append]
  by_cases hnone : Roster.bearing key h.properties = []
  · rw [hnone]
    exact hcvalue.symm
  · apply Property.settled_of_plain _ hnone
    exact fun p hm => hp p (List.mem_of_mem_filter hm)

/-- Bodies that leave a class as it is still do so when the class has taken over a further one, and
so does that one behind them. -/
theorem revise_takeOver (hc : c.revise hs = c) (hp : h.Plain)
    (hk : (Roster.keys (c.takeOver h.base h.properties).properties).Nodup) :
    (c.takeOver h.base h.properties).revise (hs ++ [h]) =
      c.takeOver h.base h.properties := by
  obtain ⟨hname, _, hchildren⟩ := head_of_revise (c.takeOver h.base h.properties) (hs ++ [h])
  exact (eq_of_values hname.symm (base_again hc).symm hchildren.symm (names_again hc).symm hk
    fun key => (value_again hc hp key).symm).symm

end Class

namespace Tree

variable {t next : Tree} {h : Heading} {hs done : List Heading}

theorem seed_of_grows (hg : t.root.Grows next.root) {scope : List String} {name : String}
    {base : Option String} {seed : Option Class} (hs : t.seed scope name base = .ok seed) :
    ∃ seed, next.seed scope name base = .ok seed := by
  cases base with
  | none => exact ⟨none, rfl⟩
  | some base =>
    obtain ⟨c, hb, _⟩ := base_of_seed hs
    obtain ⟨outer, hv, hat⟩ := isSome_base_iff.mp (Option.isSome_of_eq_some hb)
    obtain ⟨d, hd⟩ := Option.isSome_iff_exists.mp
      (isSome_base_iff.mpr ⟨outer, hv, isSome_of_grows hg hat⟩)
    exact ⟨some d, by rw [Tree.seed, hd]⟩

/-- A tree in which some bodies can be entered once more, and none of them has anything to say that
their class does not have already. -/
structure Retains (t : Tree) (hs : List Heading) : Prop where
  present : ∀ h ∈ hs, (t.at? h.path).isSome
  resolved : ∀ h ∈ hs, ∃ seed, t.seed h.scope h.name h.base = .ok seed
  settled : ∀ path c, t.at? path = some c → c.revise (Heading.ofClass path hs) = c

/-- A class that is not there has had no bodies. -/
theorem Retains.ofClass_eq_nil (hr : t.Retains hs) {path : List String} (hn : t.at? path = none) :
    Heading.ofClass path hs = [] := by
  apply Heading.ofClass_eq_nil
  rintro h hm rfl
  have hsome := hr.present h hm
  rw [hn] at hsome
  exact Bool.false_ne_true hsome

/-- Behind a body every class is settled with the bodies in front of it and with this one. -/
theorem settled_enter (hr : t.Retains done) (hn : next.Proper) (hp : h.Plain)
    (hs : (t.at? h.scope).isSome)
    (he : t.enter h.scope h.name h.base h.properties = .ok next) {path : List String} {c : Class}
    (hc : next.at? path = some c) : c.revise (Heading.ofClass path (done ++ [h])) = c := by
  rw [Heading.ofClass_snoc]
  split_ifs with hpath
  · -- the class of the body, be it new or not
    subst hpath
    obtain ⟨level, hl⟩ := Option.isSome_iff_exists.mp hs
    obtain ⟨seed, _, hself⟩ := at_enter_self hl he
    have hat : t.at? h.path = level.child? (nameKey h.name) := by
      rw [Heading.path, at_snoc, hl, Option.bind_some]
    rw [hself] at hc
    obtain rfl := Option.some.inj hc
    apply Class.revise_takeOver _ hp (Class.ordered_at hn.root hself).propertyKeys
    cases hchild : level.child? (nameKey h.name) with
    | none =>
      rw [hr.ofClass_eq_nil (hat.trans hchild)]
      rfl
    | some d => exact hr.settled _ _ (hat.trans hchild)
  · rw [List.append_nil]
    cases ht : t.at? path with
    | none =>
      rw [hr.ofClass_eq_nil ht]
      rfl
    | some d =>
      obtain ⟨e, he, hsame⟩ := sameHead_enter he ht hpath
      rw [hc] at he
      obtain rfl := Option.some.inj he
      exact Class.revise_of_sameHead hsame (hr.settled path d ht)

theorem retains_enter (hr : t.Retains done) (hn : next.Proper) (hp : h.Plain)
    (hs : (t.at? h.scope).isSome)
    (he : t.enter h.scope h.name h.base h.properties = .ok next) : next.Retains (done ++ [h]) := by
  have hg := grows_enter he
  refine ⟨?_, ?_, fun path c hc => settled_enter hr hn hp hs he hc⟩
  · simp only [List.mem_append, List.mem_singleton]
    rintro other (hm | rfl)
    · exact isSome_of_grows hg (hr.present other hm)
    · exact isSome_enter_self hs he
  · simp only [List.mem_append, List.mem_singleton]
    rintro other (hm | rfl)
    · obtain ⟨seed, hseed⟩ := hr.resolved other hm
      exact seed_of_grows hg hseed
    · obtain ⟨seed, hseed, _⟩ := enter_eq_ok.mp he
      exact seed_of_grows hg hseed

/-- Step by step, everything that has been entered is retained. -/
theorem retains_advance {known : List (List String)} (hr : t.Retains done) (ht : t.Proper)
    (hp : ∀ h ∈ hs, h.Proper ∧ h.Plain) (hk : ∀ path ∈ known, (t.at? path).isSome)
    (hn : Heading.Nested known hs) (ha : (t.advance hs).result = .ok next) :
    next.Retains (done ++ hs) := by
  -- on the bodies that are left; each one is done when the next one is entered
  induction hs generalizing t done known with
  | nil =>
    obtain rfl := Except.ok.inj ha
    rwa [List.append_nil]
  | cons h hs ih =>
    obtain ⟨⟨hproper, hplain⟩, hps⟩ := List.forall_mem_cons.mp hp
    obtain ⟨hscope, hrest⟩ := hn
    rw [result_advance_cons] at ha
    obtain ⟨mid, he, ha⟩ := bind_eq_ok.mp ha
    have hmid := proper_enter ht hproper.name hproper.base hproper.properties he
    have hknown : ∀ path ∈ h.path :: known, (mid.at? path).isSome :=
      List.forall_mem_cons.mpr ⟨isSome_enter_self (hk _ hscope) he,
        fun path hm => isSome_of_grows (grows_enter he) (hk path hm)⟩
    have hretains := ih (retains_enter hr hmid hplain (hk _ hscope) he) hmid hps hknown hrest ha
    rwa [List.append_assoc] at hretains

/-- Bodies whose classes and bases are there can be entered. Each class takes over its own ones. -/
theorem front?_advance (hc : ∀ h ∈ hs, (t.at? h.path).isSome)
    (hb : ∀ h ∈ hs, ∃ seed, t.seed h.scope h.name h.base = .ok seed) :
    ∃ next, (t.advance hs).result = .ok next ∧ ∀ path, next.front? path =
      (t.front? path).map fun c => c.revise (Heading.ofClass path hs) := by
  -- on the bodies; what is there stays there, so that the next one finds its class and its base
  induction hs generalizing t with
  | nil => exact ⟨t, rfl, fun path => Option.map_id'.symm⟩
  | cons h hs ih =>
    obtain ⟨hclass, hcs⟩ := List.forall_mem_cons.mp hc
    obtain ⟨⟨seed, hseed⟩, hbs⟩ := List.forall_mem_cons.mp hb
    obtain ⟨mid, he⟩ : ∃ mid, t.enter h.scope h.name h.base h.properties = .ok mid :=
      ⟨_, enter_eq_ok.mpr ⟨seed, hseed, rfl⟩⟩
    have hg := grows_enter he
    obtain ⟨next, ha, hnext⟩ := ih (fun other hm => isSome_of_grows hg (hcs other hm))
      (fun other hm => let ⟨_, hs⟩ := hbs other hm; seed_of_grows hg hs)
    refine ⟨next, ?_, ?_⟩
    · rw [result_advance_cons, he]
      exact ha
    · intro path
      rw [hnext, front?_enter hclass he, Heading.ofClass_cons]
      split_ifs with hp hp' hp'
      · rw [Option.map_map]
        rfl
      · exact absurd hp.symm hp'
      · exact absurd hp'.symm hp
      · rfl

/-- A tree that retains some bodies stays as it is when they are entered once more. -/
theorem advance_retained (ht : t.Proper) (hp : ∀ h ∈ hs, h.Proper) (hr : t.Retains hs) :
    (t.advance hs).result = .ok t := by
  obtain ⟨next, ha, hnext⟩ := front?_advance hr.present hr.resolved
  have hproper : next.Proper := tree_of_result ha ▸ proper_advance ht hp
  have hsame : next = t := by
    apply hproper.eq_of_front? ht
    intro path
    rw [hnext, front?, Class.front?, Option.map_map]
    cases hat : t.root.at? path with
    | none => rfl
    | some c =>
      have hsettled := congrArg Class.front (hr.settled path c hat)
      rw [Class.front_revise] at hsettled
      exact congrArg some hsettled
  rw [ha, hsame]

def headingsOf (fragments : List (String × Forest)) : List Heading :=
  fragments.flatMap fun f => Declaration.headingsOfAll [] f.2

/-- Merging fragments succeeds exactly if all of their bodies can be entered. -/
theorem applyAll_eq_ok {fragments : List (String × Forest)} :
    t.applyAll fragments = .ok next ↔ (t.advance (headingsOf fragments)).result = .ok next := by
  induction fragments generalizing t with
  | nil =>
    have hnil : (t.advance (headingsOf [])).result = .ok t := rfl
    rw [applyAll, hnil, Except.ok.injEq, Except.ok.injEq]
  | cons fragment rest ih =>
    obtain ⟨source, forest⟩ := fragment
    rw [applyAll, bind_eq_ok, headingsOf, List.flatMap_cons, result_advance_append, bind_eq_ok]
    exact exists_congr fun mid => and_congr apply_eq_ok ih

/-- Merging the same fragments once more behind themselves changes nothing, if they append nothing:
all bases are still found, and the tree is the same in every respect. -/
theorem merge_again (fragments : List (String × Forest)) (t : Tree)
    (hf : ∀ f ∈ fragments, ∃ text, Fragment.parse text = .ok f.2)
    (hp : ∀ f ∈ fragments, ∀ h ∈ Declaration.headingsOfAll [] f.2, ∀ p ∈ h.properties,
      p.append = false)
    (hm : merge fragments = .ok t) : merge (fragments ++ fragments) = .ok t := by
  have hproper : ∀ h ∈ headingsOf fragments, h.Proper := by
    intro h hh
    obtain ⟨f, hfm, hh⟩ := List.mem_flatMap.mp hh
    obtain ⟨text, hparse⟩ := hf f hfm
    obtain ⟨d, hd, hh⟩ := Declaration.mem_headingsOfAll.mp hh
    exact Declaration.proper_headings ((Fragment.proper_of_parse hparse).all d hd) [] h hh
  have hplain : ∀ h ∈ headingsOf fragments, h.Proper ∧ h.Plain := by
    intro h hh
    obtain ⟨f, hfm, hin⟩ := List.mem_flatMap.mp hh
    exact ⟨hproper h hh, hp f hfm h hin⟩
  have hnested : Heading.Nested [[]] (headingsOf fragments) := by
    clear hf hp hm hproper hplain
    induction fragments with
    | nil => trivial
    | cons f rest ih => exact (Declaration.nested_headingsOfAll [] f.2).append ih
  have hroot : ∀ path ∈ [([] : List String)], (empty.at? path).isSome :=
    List.forall_mem_singleton.mpr rfl
  -- in front of the first body there is nothing to retain
  have hempty : empty.Retains [] := ⟨by simp, by simp, fun _ _ _ => rfl⟩
  have hrun := applyAll_eq_ok.mp hm
  have hretains := retains_advance hempty proper_empty hplain hroot hnested hrun
  have htree : t.Proper := tree_of_result hrun ▸ proper_advance proper_empty hproper
  rw [merge, applyAll_eq_ok, headingsOf, List.flatMap_append, ← headingsOf, result_advance_append,
    hrun]
  exact advance_retained htree hproper hretains

-- The bodies of `class A{x=1;};class B:A{x=2;};`.
def firstBodies : List Heading :=
  [⟨[], "A", none, [⟨"x", .scalar (.number "1"), false, ⟨8, 1, 9⟩⟩]⟩,
    ⟨[], "B", some "A", [⟨"x", .scalar (.number "2"), false, ⟨24, 1, 25⟩⟩]⟩]

-- The bodies of `class a{X=3;class K{};};`.
def secondBodies : List Heading :=
  [⟨[], "a", none, [⟨"X", .scalar (.number "3"), false, ⟨8, 1, 9⟩⟩]⟩, ⟨["a"], "K", none, []⟩]

def bothMerged : Tree :=
  ⟨⟨"", none, [], [⟨"A", none, [⟨"x", .scalar (.number "3")⟩], [.empty "K"]⟩,
    ⟨"B", some "A", [⟨"x", .scalar (.number "2")⟩], []⟩]⟩⟩

/-- The first fragment sets back a value of the second one, which comes up again behind it. -/
theorem merge_again_set_back : ∃ first second : String × Forest,
    Fragment.parse "class A{x=1;};class B:A{x=2;};" = .ok first.2 ∧
    Fragment.parse "class a{X=3;class K{};};" = .ok second.2 ∧
    merge [first, second] = .ok bothMerged ∧
    merge [first, second, first, second] = .ok bothMerged := by
  obtain ⟨first, hfirst, htest⟩ : ∃ first,
      Fragment.parse "class A{x=1;};class B:A{x=2;};" = .ok first ∧
        decide (Declaration.headingsOfAll [] first = firstBodies) = true :=
    Attempt.exists_ok (by decide +kernel)
  obtain ⟨second, hsecond, htest'⟩ : ∃ second,
      Fragment.parse "class a{X=3;class K{};};" = .ok second ∧
        decide (Declaration.headingsOfAll [] second = secondBodies) = true :=
    Attempt.exists_ok (by decide +kernel)
  have hbodies := of_decide_eq_true htest
  have hbodies' := of_decide_eq_true htest'
  have hrun : (empty.advance (firstBodies ++ secondBodies)).result = .ok bothMerged := by cbv
  have hmerge : merge [("f.cpp", first), ("s.cpp", second)] = .ok bothMerged := by
    rw [merge, applyAll_eq_ok, headingsOf, List.flatMap_cons, List.flatMap_singleton, hbodies,
      hbodies']
    exact hrun
  have hparsed : ∀ f ∈ [("f.cpp", first), ("s.cpp", second)],
      ∃ text, Fragment.parse text = .ok f.2 :=
    List.forall_mem_cons.mpr ⟨⟨_, hfirst⟩, List.forall_mem_singleton.mpr ⟨_, hsecond⟩⟩
  have hplain : ∀ f ∈ [("f.cpp", first), ("s.cpp", second)],
      ∀ h ∈ Declaration.headingsOfAll [] f.2, ∀ p ∈ h.properties, p.append = false := by
    rw [List.forall_mem_cons, List.forall_mem_singleton, hbodies, hbodies']
    exact ⟨by decide, by decide⟩
  exact ⟨_, _, hfirst, hsecond, hmerge, merge_again _ _ hparsed hplain hmerge⟩

end Tree

end Overlay
