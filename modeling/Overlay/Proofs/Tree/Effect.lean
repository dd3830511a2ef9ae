import Mathlib
import Overlay.Proofs.Tree.Entering

/-! What a fragment makes of a tree. Each body that it declares is entered where its class can
stand, and in the end the class has what the body says, since no other body of the fragment is of
the same class. A class for which the fragment has no body, neither for itself nor inside, stays as
it is. -/
namespace Overlay
open Attempt (bind_eq_ok)

namespace Heading

/-- A class that has what a body says: the base, if the body names one, the values that it assigns,
and the elements that it appends at the end of arrays. -/
structure TakenOver (h : Heading) (c : Class) : Prop where
  base : ∀ b ∈ h.base, c.base = some b
  assigned : ∀ p ∈ h.properties, p.append = false → c.value? (keyOf p) = some p.value
  appended : ∀ p ∈ h.properties, p.append = true → ∃ items more,
    p.value = .array more ∧ c.value? (keyOf p) = some (.array (items ++ more))

variable {h : Heading} {c d : Class}

theorem TakenOver.of_sameHead (ht : h.TakenOver c) (hd : d.SameHead c) : h.TakenOver d where
  base := fun b hb => hd.base.trans (ht.base b hb)
  assigned := fun p hp ha => (hd.value _).trans (ht.assigned p hp ha)
  appended := fun p hp ha =>
    let ⟨items, more, hv, hc⟩ := ht.appended p hp ha
    ⟨items, more, hv, (hd.value _).trans hc⟩

/-- With no key declared twice, only the declaration of a property counts for its value. -/
theorem value_of_mem (hk : (Roster.keys h.properties).Nodup) {p : Property}
    (hp : p ∈ h.properties) (c : Class) :
    (c.takeOver h.base h.properties).value? (keyOf p) = some (p.after (c.value? (keyOf p))) := by
  have hfind : Roster.find? (keyOf p) h.properties = some p :=
    (Roster.find_eq_some_iff hk).mpr ⟨hp, rfl⟩
  rw [Class.value_takeOver, Roster.bearing_eq_find _ hk, hfind]
  rfl

/-- Right behind a body its class has what the body says. -/
theorem takenOver_takeOver (hk : (Roster.keys h.properties).Nodup)
    (hp : ∀ p ∈ h.properties, p.Proper) (c : Class) :
    h.TakenOver (c.takeOver h.base h.properties) where
  base := by
    intro b hb
    rw [(Class.head_of_takeOver c h.base h.properties).2, Option.mem_def.mp hb]
    rfl
  assigned := by
    intro p hm ha
    rw [value_of_mem hk hm, Property.after_of_plain ha]
  appended := by
    intro p hm ha
    obtain ⟨more, hv⟩ : ∃ more, p.value = .array more := by
      have harray := (hp p hm).append ha
      cases hv : p.value with
      | scalar s => simp [hv, Value.isArray] at harray
      | array more => exact ⟨more, rfl⟩
    obtain ⟨items, hitems⟩ := Property.after_of_append ha hv (c.value? (keyOf p))
    exact ⟨items, more, hv, (value_of_mem hk hm c).trans (congrArg some hitems)⟩

end Heading

namespace Tree

variable {t next : Tree} {h : Heading} {c : Class}

/-- A body that is the only one of its class has been taken over in the end. -/
theorem takenOver_of_run {before after : List Heading} {mid : Tree}
    (hk : (Roster.keys h.properties).Nodup) (hp : ∀ p ∈ h.properties, p.Proper)
    (hb : (t.advance before).result = .ok mid) (hs : (mid.at? h.scope).isSome)
    (ha : (t.advance (before ++ h :: after)).result = .ok next)
    (hn : ∀ other ∈ after, other.path ≠ h.path) :
    ∃ c, next.at? h.path = some c ∧ h.TakenOver c := by
  obtain ⟨level, hl⟩ := Option.isSome_iff_exists.mp hs
  rw [result_advance_append, hb] at ha
  have hrun : (mid.advance (h :: after)).result = .ok next := ha
  rw [result_advance_cons] at hrun
  obtain ⟨entered, he, hrest⟩ := bind_eq_ok.mp hrun
  obtain ⟨seed, _, hself⟩ := at_enter_self hl he
  obtain ⟨c, hc, hsame⟩ := sameHead_advance hself hn
  rw [tree_of_result hrest] at hc
  exact ⟨c, hc, (Heading.takenOver_takeOver hk hp _).of_sameHead hsame⟩

/-- No declaration of a fragment gets lost. Whenever a body is entered, the class in which it stands
is there. If merging succeeds, each class that the fragment declares with a body is there, with the
base and the values that the body declares for it, and with its elements at the end of the arrays
that it extends. -/
theorem apply_takes_over (t : Tree) (text : String) (forest : Forest)
    (hp : Fragment.parse text = .ok forest) :
    (∀ before h after mid, Declaration.headingsOfAll [] forest = before ++ h :: after →
      (t.advance before).result = .ok mid → (mid.at? h.scope).isSome) ∧
    ∀ source next, t.apply source forest = .ok next →
      ∀ h ∈ Declaration.headingsOfAll [] forest, ∃ c, next.at? h.path = some c ∧ h.TakenOver c := by
  have hproper := Fragment.proper_of_parse hp
  have hroot : ∀ path ∈ [([] : List String)], (t.at? path).isSome :=
    List.forall_mem_singleton.mpr rfl
  have hnested := Declaration.nested_headingsOfAll [] forest
  have hscope (before : List Heading) (h : Heading) (after : List Heading) (mid : Tree)
      (heq : Declaration.headingsOfAll [] forest = before ++ h :: after)
      (hb : (t.advance before).result = .ok mid) : (mid.at? h.scope).isSome :=
    isSome_scope hroot (heq ▸ hnested) hb
  refine ⟨hscope, ?_⟩
  intro source next ha h hm
  rw [apply_eq_ok] at ha
  obtain ⟨before, after, heq⟩ := List.append_of_mem hm
  obtain ⟨d, hd, hmd⟩ := Declaration.mem_headingsOfAll.mp hm
  have hdp := hproper.all d hd
  have hpaths : ((Declaration.headingsOfAll [] forest).map Heading.path).Nodup :=
    Declaration.nodup_paths_of hproper.keys fun d hd => (hproper.all d hd).nodup_paths []
  -- no body behind it has its path, so nothing overrides what it declares
  have hn : ∀ other ∈ after, other.path ≠ h.path := by
    intro other ho hsame
    rw [heq, List.map_append, List.map_cons] at hpaths
    have hnew := (List.nodup_cons.mp (List.nodup_append.mp hpaths).2.1).1
    exact hnew (hsame ▸ List.mem_map_of_mem ho)
  rw [heq] at ha
  obtain ⟨mid, hb, _⟩ := bind_eq_ok.mp ((result_advance_append t before (h :: after)) ▸ ha)
  exact takenOver_of_run (hdp.nodup_properties [] h hmd)
    (Declaration.proper_headings hdp [] h hmd).properties hb (hscope before h after mid heq hb) ha
    hn

-- The tree of `class A { x[] = {0}; };`.
def listed : Tree :=
  ⟨⟨"", none, [], [⟨"A", none, [⟨"x", .array [.number "0"]⟩], []⟩]⟩⟩

-- The body of `B` in `class a{class B:A{X[]+={1};};};`.
def extending : Heading :=
  ⟨["a"], "B", some "A", [⟨"X", .array [.number "1"], true, ⟨18, 1, 19⟩⟩]⟩

theorem apply_takes_over_extending : ∃ forest next,
    Fragment.parse "class a{class B:A{X[]+={1};};};" = .ok forest ∧
    extending ∈ Declaration.headingsOfAll [] forest ∧
    listed.apply "ext.cpp" forest = .ok next ∧
    ∃ c, next.at? ["a", "b"] = some c ∧ c.base = some "A" ∧
      ∃ items, c.value? "x" = some (.array (items ++ [.number "1"])) := by
  obtain ⟨forest, hforest, htest⟩ : ∃ forest,
      Fragment.parse "class a{class B:A{X[]+={1};};};" = .ok forest ∧
        decide (Declaration.headingsOfAll [] forest = [⟨[], "a", none, []⟩, extending]) = true :=
    Attempt.exists_ok (by decide +kernel)
  have hheadings := of_decide_eq_true htest
  have hm : extending ∈ Declaration.headingsOfAll [] forest := by
    rw [hheadings]
    exact List.mem_cons_of_mem _ (List.mem_singleton_self _)
  obtain ⟨next, hnext⟩ : ∃ next, listed.apply "ext.cpp" forest = .ok next := by
    have hrun : (listed.advance [⟨[], "a", none, []⟩, extending]).result.isOk = true := by cbv
    obtain ⟨next, hnext⟩ := Attempt.isOk_iff.mp hrun
    exact ⟨next, apply_eq_ok.mpr (hheadings ▸ hnext)⟩
  obtain ⟨c, hc, htaken⟩ :=
    (apply_takes_over listed _ forest hforest).2 "ext.cpp" next hnext extending hm
  obtain ⟨items, more, hmore, hx⟩ := htaken.appended _ (List.mem_singleton_self _) rfl
  obtain rfl := Value.array.inj hmore
  have hpath : extending.path = ["a", "b"] := by cbv
  have hkey : keyOf (⟨"X", .array [.number "1"], true, ⟨18, 1, 19⟩⟩ : Property) = "x" := by cbv
  exact ⟨forest, next, hforest, hm, hnext, c, hpath ▸ hc, htaken.base "A" rfl, items, hkey ▸ hx⟩

/-- A class stays exactly as it is, with all that is inside, if a fragment has no body for it and
none for a class inside it, whatever becomes of other classes, and whether merging succeeds or
not. -/
theorem apply_leaves (t : Tree) (forest : Forest) (path : List String) (c : Class)
    (hc : t.at? path = some c)
    (hn : ∀ h ∈ Declaration.headingsOfAll [] forest, ¬path <+: h.path) :
    (t.attempt forest).tree.at? path = some c ∧
      ∀ source next, t.apply source forest = .ok next → next.at? path = some c := by
  have hattempt : (t.attempt forest).tree.at? path = some c := by
    refine (at_advance_elsewhere hn ?_).trans hc
    intro h _ hbelow
    exact Class.isSome_at_of_prefix hbelow (Option.isSome_of_eq_some hc)
  refine ⟨hattempt, ?_⟩
  intro source next ha
  rw [eq_attempt_of_apply ha]
  exact hattempt

-- The tree of `class A { x = 1; class K { y = 1; }; }; class B: A {};`.
def inherited : Tree :=
  let inner := Class.mk "K" none [⟨"y", .scalar (.number "1")⟩] []
  ⟨⟨"", none, [], [⟨"A", none, [⟨"x", .scalar (.number "1")⟩], [inner]⟩,
    ⟨"B", some "A", [⟨"x", .scalar (.number "1")⟩], [inner]⟩]⟩⟩

-- `class a { x = 2; class k { y = 3; }; }; class C: B {};`
def overriding : Forest :=
  [.body "a" none [⟨"x", .scalar (.number "2"), false, .start⟩]
    [.body "k" none [⟨"y", .scalar (.number "3"), false, .start⟩] [] .start] .start,
    .body "C" (some "B") [] [] .start]

def overridden : Tree :=
  let inner (y : String) := Class.mk "K" none [⟨"y", .scalar (.number y)⟩] []
  ⟨⟨"", none, [], [⟨"A", none, [⟨"x", .scalar (.number "2")⟩], [inner "3"]⟩,
    ⟨"B", some "A", [⟨"x", .scalar (.number "1")⟩], [inner "1"]⟩,
    ⟨"C", some "B", [⟨"x", .scalar (.number "1")⟩], [inner "1"]⟩]⟩⟩

/-- What the copy of a class has stays when the class itself is overridden. -/
theorem apply_leaves_copy : ∃ copy next,
    inherited.at? ["b"] = some copy ∧ copy.value? "x" = some (.scalar (.number "1")) ∧
    (∀ h ∈ Declaration.headingsOfAll [] overriding, ¬["b"] <+: h.path) ∧
    inherited.apply "ext.cpp" overriding = .ok next ∧
    (next.at? ["a"]).bind (·.value? "x") = some (.scalar (.number "2")) ∧
    next.at? ["b"] = some copy := by
  have hpaths : (Declaration.headingsOfAll [] overriding).map Heading.path =
      [["a"], ["a", "k"], ["c"]] := by cbv
  have hn : ∀ h ∈ Declaration.headingsOfAll [] overriding, ¬["b"] <+: h.path := by
    intro h hm
    have hin : h.path ∈ [["a"], ["a", "k"], ["c"]] := hpaths ▸ List.mem_map_of_mem hm
    revert hin
    generalize h.path = path
    decide +revert
  have hnext : inherited.apply "ext.cpp" overriding = .ok overridden := by cbv
  have hcopy : inherited.at? ["b"] = some ⟨"B", some "A", [⟨"x", .scalar (.number "1")⟩],
      [⟨"K", none, [⟨"y", .scalar (.number "1")⟩], []⟩]⟩ := by cbv
  exact ⟨_, overridden, hcopy, by cbv, hn, hnext, by cbv,
    (apply_leaves inherited overriding ["b"] _ hcopy hn).2 "ext.cpp" overridden hnext⟩

end Tree

end Overlay
