import Overlay.Proofs.Registry.Places
import Overlay.Proofs.Registry.Resolve
import Overlay.Proofs.Session.Arrival

namespace Overlay.Session
open Record (unplaced)
open scoped List

/-- Behind a stage that failed nothing happens any more. -/
theorem andThen_of_error {α β : Type} {step : Step α} {e : SessionError} (next : Session → Step β)
    (h : step.result = .error e) : (step.andThen next).result = .error e := by
  rw [Step.andThen]
  simp only [h]

theorem andThen_andThen_of_ok {α β γ : Type} {step : Step α} {a : α} (next : Session → Step β)
    (last : Session → Step γ) (h : step.result = .ok a) :
    ((step.andThen next).andThen last).result = ((next step.session).andThen last).result := by
  obtain ⟨hr, hs⟩ := andThen_of_ok next h
  cases hn : (next step.session).result with
  | error e => rw [andThen_of_error last (hr.trans hn), andThen_of_error last hn]
  | ok b => rw [(andThen_of_ok last (hr.trans hn)).1, (andThen_of_ok last hn).1, hs]

theorem resolve_of_error {s : Session} {e : ResolveError} (hs : s.stage = .registering)
    (h : s.registry.resolve s.options.hostVersion = .error e) :
    s.resolve.result = .error (.resolve e) := by
  rw [resolve, (result_of_enter hs).1]
  simp only [h]
  rfl

theorem merge_of_error {s : Session} {e : MergeError} (hs : s.stage = .resolving)
    (h : Tree.merge s.fragments = .error e) : s.merge.result = .error (.merge e) := by
  rw [merge, (result_of_enter hs).1]
  have hf : fragments { s with stage := .merging } = s.fragments := rfl
  simp only [hf, h]
  rfl

def arranged (options : SessionOptions) (sources : List Source) (order : List Record) :
    List (String × Forest) :=
  fragments { afterParsing options sources with order := order }

/-- Two runs end in the same way: with equal trees and the same identities in order, with equal
errors of resolving or of merging, or with as many errors of fragments. -/
def SameEnd : Except SessionError Outcome → Except SessionError Outcome → Prop
  | .ok a, .ok b => a.tree = b.tree ∧ a.order.map Record.identity = b.order.map Record.identity
  | .error (.fragments es), .error (.fragments es') => es.length = es'.length
  | .error (.resolve e), .error (.resolve e') => e = e'
  | .error (.merge e), .error (.merge e') => e = e'
  | _, _ => False

/-- How a session ends that goes on to resolve and to merge what it holds. -/
inductive Concludes (options : SessionOptions) (sources : List Source) :
    Except SessionError Outcome → Prop
  | unresolved {e : ResolveError}
      (hr : (registered options sources).1.resolve options.hostVersion = .error e) :
      Concludes options sources (.error (.resolve e))
  | unmerged {order : List Record} {e : MergeError}
      (hr : (registered options sources).1.resolve options.hostVersion = .ok order)
      (hm : Tree.merge (arranged options sources order) = .error e) :
      Concludes options sources (.error (.merge e))
  | finalized {order : List Record} {tree : Tree} {report : Report}
      (hr : (registered options sources).1.resolve options.hostVersion = .ok order)
      (hm : Tree.merge (arranged options sources order) = .ok tree) :
      Concludes options sources (.ok ⟨tree, order, report⟩)

variable {options options' : SessionOptions} {sources sources' : List Source}

/-- A session that has a registry goes on to resolve and to merge. -/
theorem concludes_of_registered {s : Session} {errors : List FragmentError}
    (hs : s = { afterParsing options sources with
      stage := .registering
      registry := (registered options sources).1
      errors := errors }) :
    Concludes options sources (s.resolve.andThen merge).result := by
  have hstage : s.stage = .registering := by rw [hs]
  have hregistry : s.registry.resolve s.options.hostVersion =
      (registered options sources).1.resolve options.hostVersion := by
    rw [hs]
    rfl
  -- resolving may fail, and behind it merging
  cases hres : (registered options sources).1.resolve options.hostVersion with
  | error e =>
    have hfail := resolve_of_error hstage (hregistry.trans hres)
    rw [andThen_of_error merge hfail]
    exact .unresolved hres
  | ok order =>
    have hok := resolve_of_ok hstage (hregistry.trans hres)
    obtain ⟨order', ho, hnext⟩ := resolve_eq_ok hstage hok
    obtain rfl : order' = order := Except.ok.inj (ho.symm.trans (hregistry.trans hres))
    rw [(andThen_of_ok merge hok).1, hnext]
    have hfragments : fragments { s with stage := .resolving, order := order' } =
        arranged options sources order' := by
      rw [hs]
      rfl
    cases hm : Tree.merge (arranged options sources order') with
    | error e =>
      rw [merge_of_error rfl (hfragments ▸ hm)]
      exact .unmerged hres hm
    | ok tree =>
      rw [merge_of_ok rfl (hfragments ▸ hm)]
      exact .finalized hres hm

/-- A run goes on if no fragment has an error, or if those that have one are skipped, in whichever
order the records come to the registry. -/
theorem concludes_runArriving {arrivals : List Record}
    (ha : arrivals ~ recordsOf (afterParsing options sources).extracted)
    (h : findings options sources = [] ∨ options.onError = .skip) :
    Concludes options sources (runArriving options sources arrivals).result := by
  obtain ⟨hr, hs⟩ := parse_andThen options sources (registerArriving arrivals)
  obtain ⟨hok, hsession⟩ := registerArriving_of_accepted (h.imp_left (no_errors_arrived ha).mpr)
  have hregistered : (registerArriving arrivals (afterParsing options sources)).session =
      { afterParsing options sources with
        stage := .registering
        registry := (registered options sources).1
        errors := (arrived options sources arrivals).errors } := by
    rw [hsession, ← registry_arrived ha]
    rfl
  rw [runArriving, andThen_andThen_of_ok resolve merge (hr.trans hok), hs]
  exact concludes_of_registered hregistered

theorem concludes_run (h : findings options sources = [] ∨ options.onError = .skip) :
    Concludes options sources (run options sources).result := by
  rw [← runArriving_in_order]
  exact concludes_runArriving (List.Perm.refl _) h

theorem filterMap_eq_of_map_eq {α β γ : Type} {as bs : List α} {f g : α → Option β} {k : α → γ}
    (h : as.map k = bs.map k) (hf : ∀ a ∈ as, ∀ b ∈ bs, k a = k b → f a = g b) :
    as.filterMap f = bs.filterMap g := by
  induction as generalizing bs with
  | nil =>
    rw [List.map_eq_nil_iff.mp h.symm]
    rfl
  | cons a as ih =>
    obtain ⟨b, rest, rfl, hb, hrest⟩ := List.map_eq_cons_iff.mp h.symm
    have hfirst := hf a List.mem_cons_self b List.mem_cons_self hb.symm
    have htail := ih hrest.symm fun x hx y hy =>
      hf x (List.mem_cons_of_mem a hx) y (List.mem_cons_of_mem b hy)
    rw [List.filterMap_cons, List.filterMap_cons, hfirst, htail]

section Agreement

variable (h : holdings options sources = holdings options' sources')
include h

/-- Sessions that hold the same resolve to the same order or with the same error. -/
theorem resolve_agree (host : Option DeclaredVersion) :
    ((registered options sources).1.resolve host).map (List.map unplaced) =
      ((registered options' sources').1.resolve host).map (List.map unplaced) := by
  have hrecords : (registered options sources).1.records.map unplaced =
      (registered options' sources').1.records.map unplaced := by
    rw [← holdings_fst, ← holdings_fst, h]
  have hfirst := Registry.resolve_unplaced (registered options sources).1.records host
  have hsecond := Registry.resolve_unplaced (registered options' sources').1.records host
  rw [hrecords, hsecond] at hfirst
  exact hfirst.symm

/-- Records in one order stand for the same fragments, whatever the places of their sources. -/
theorem arranged_agree {order order' : List Record}
    (ho : ∀ r ∈ order, r ∈ (registered options sources).1.records)
    (ho' : ∀ r ∈ order', r ∈ (registered options' sources').1.records)
    (heq : order.map unplaced = order'.map unplaced) :
    arranged options sources order = arranged options' sources' order' := by
  apply filterMap_eq_of_map_eq heq
  intro r hr r' hr' hsame
  obtain ⟨forest, hf, hc⟩ := forest_of_held (ho r hr)
  obtain ⟨forest', hf', hc'⟩ := forest_of_held (ho' r' hr')
  -- nothing else is held under the key of this record
  rw [← h] at hc'
  have hkey : keyOf r.unplaced = keyOf r'.unplaced := congrArg keyOf hsame
  have hpair := List.inj_on_of_nodup_map (holdings_keys_nodup options sources) hc hc' hkey
  have hsource : r.unplaced.source = r'.unplaced.source := congrArg Record.source hsame
  have hforest : forest = forest' := (Prod.mk.inj hpair).2
  have hleft : forest? { afterParsing options sources with order := order } r = some forest := hf
  have hright : forest? { afterParsing options' sources' with order := order' } r' =
    some forest' := hf'
  rw [hleft, hright, hforest]
  exact congrArg (fun source => some (source, forest')) hsource

/-- Sessions that hold the same merge the same fragments in the same order. -/
theorem order_agree {order order' : List Record} {host : Option DeclaredVersion}
    (hr : (registered options sources).1.resolve host = .ok order)
    (hr' : (registered options' sources').1.resolve host = .ok order') :
    order.map unplaced = order'.map unplaced ∧
      arranged options sources order = arranged options' sources' order' := by
  have heq : order.map unplaced = order'.map unplaced := by
    have hagree := resolve_agree h host
    rw [hr, hr'] at hagree
    exact Except.ok.inj hagree
  have hperm := Registry.resolve_perm (ascending_registered options sources) hr
  have hperm' := Registry.resolve_perm (ascending_registered options' sources') hr'
  refine ⟨heq, ?_⟩
  exact arranged_agree h (fun r hm => hperm.mem_iff.mp hm) (fun r hm => hperm'.mem_iff.mp hm) heq

/-- What is held settles how a session ends. -/
theorem sameEnd_of_concludes {first second : Except SessionError Outcome}
    (hh : options.hostVersion = options'.hostVersion) (hf : Concludes options sources first)
    (hs : Concludes options' sources' second) : SameEnd first second := by
  have hagree := resolve_agree h options.hostVersion
  -- an end and one of another kind contradict each other on the order or on the tree
  cases hf with
  | unresolved hr =>
    cases hs with
    | unresolved hr' =>
      rw [hr, hh, hr'] at hagree
      exact Except.error.inj hagree
    | unmerged hr' | finalized hr' =>
      rw [hr, hh, hr'] at hagree
      exact nomatch hagree
  | unmerged hr hm =>
    cases hs with
    | unresolved hr' =>
      rw [hr, hh, hr'] at hagree
      exact nomatch hagree
    | unmerged hr' hm' =>
      rw [(order_agree h hr (hh ▸ hr')).2, hm'] at hm
      exact (Except.error.inj hm).symm
    | finalized hr' hm' =>
      rw [(order_agree h hr (hh ▸ hr')).2, hm'] at hm
      exact nomatch hm
  | finalized hr hm =>
    cases hs with
    | unresolved hr' =>
      rw [hr, hh, hr'] at hagree
      exact nomatch hagree
    | unmerged hr' hm' =>
      rw [(order_agree h hr (hh ▸ hr')).2, hm'] at hm
      exact nomatch hm
    | finalized hr' hm' =>
      obtain ⟨hunplaced, harranged⟩ := order_agree h hr (hh ▸ hr')
      rw [harranged, hm'] at hm
      have hidentities := congrArg (List.map Record.identity) hunplaced
      rw [List.map_map, List.map_map] at hidentities
      exact ⟨(Except.ok.inj hm).symm, hidentities⟩

end Agreement

end Overlay.Session
