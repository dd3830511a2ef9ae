import Overlay.Proofs.Session.Conclusion
import Overlay.Proofs.Session.Requirements

namespace Overlay.Session
open scoped List

/-- How a run ends that rejects fragments with errors. It is left open which holders the errors
name. -/
inductive Ends (options : SessionOptions) (sources : List Source) :
    Except SessionError Outcome → Prop
  | rejected {errors : List FragmentError} (h : findings options sources ≠ [])
      (he : errors.map FragmentError.index = (findings options sources).map FragmentError.index) :
      Ends options sources (.error (.fragments errors))
  | unresolved {e : ResolveError} (h : findings options sources = [])
      (hr : (registered options sources).1.resolve options.hostVersion = .error e) :
      Ends options sources (.error (.resolve e))
  | unmerged {order : List Record} {e : MergeError} (h : findings options sources = [])
      (hr : (registered options sources).1.resolve options.hostVersion = .ok order)
      (hm : Tree.merge (arranged options sources order) = .error e) :
      Ends options sources (.error (.merge e))
  | finalized {order : List Record} {tree : Tree} {report : Report}
      (h : findings options sources = [])
      (hr : (registered options sources).1.resolve options.hostVersion = .ok order)
      (hm : Tree.merge (arranged options sources order) = .ok tree) :
      Ends options sources (.ok ⟨tree, order, report⟩)

variable {options : SessionOptions} {sources sources' : List Source} {arrivals : List Record}

/-- Without errors a run goes on to resolve and to merge. -/
theorem ends_of_concludes {result : Except SessionError Outcome}
    (hn : findings options sources = []) (h : Concludes options sources result) :
    Ends options sources result := by
  cases h with
  | unresolved hr => exact .unresolved hn hr
  | unmerged hr hm => exact .unmerged hn hr hm
  | finalized hr hm => exact .finalized hn hr hm

theorem concludes_of_ends {result : Except SessionError Outcome}
    (hn : findings options sources = []) (h : Ends options sources result) :
    Concludes options sources result := by
  cases h with
  | rejected h he => exact absurd hn h
  | unresolved _ hr => exact .unresolved hr
  | unmerged _ hr hm => exact .unmerged hr hm
  | finalized _ hr hm => exact .finalized hr hm

/-- With errors rejected, a run ends with all of them or goes on without any, whatever the order of
arrival. -/
theorem ends_runArriving (ha : arrivals ~ recordsOf (afterParsing options sources).extracted)
    (hp : options.onError = .reject) :
    Ends options sources (runArriving options sources arrivals).result := by
  by_cases hn : findings options sources = []
  · exact ends_of_concludes hn (concludes_runArriving ha (.inl hn))
  · have hfail := registerArriving_of_rejected hp (mt (no_errors_arrived ha).mp hn)
    have hstage := (parse_andThen options sources (registerArriving arrivals)).1.trans hfail
    rw [runArriving, andThen_of_error merge (andThen_of_error resolve hstage)]
    exact .rejected hn (error_places_arrived ha)

theorem ends_run (hp : options.onError = .reject) :
    Ends options sources (run options sources).result := by
  rw [← runArriving_in_order]
  exact ends_runArriving (List.Perm.refl _) hp

/-- The number of errors does not depend on the order of the sources. -/
theorem length_findings_perm (options : SessionOptions) (hp : sources ~ sources') :
    (findings options sources).length = (findings options sources').length := by
  have hkeys : (recordsOf (afterParsing options sources).extracted).map keyOf ~
      (recordsOf (afterParsing options sources').extracted).map keyOf := by
    rw [keys_extracted, keys_extracted]
    exact (hp.filterMap _).map _
  have hsize := Registry.size_eq_of_perm hkeys
  rw [← (registered_eq options sources).1, ← (registered_eq options sources').1] at hsize
  have hfirst := length_findings options sources
  have hsecond := length_findings options sources'
  have hlength := hp.length_eq
  omega

/-- Without errors, what is held does not depend on the order of the sources. -/
theorem holdings_of_perm (hp : sources ~ sources') (h : findings options sources = [])
    (h' : findings options sources' = []) :
    holdings options sources = holdings options sources' := by
  apply holdings_eq_of_perm
  have hfirst := holdings_perm options sources
  have hsecond := holdings_perm options sources'
  rw [accepted_of_no_findings h] at hfirst
  rw [accepted_of_no_findings h'] at hsecond
  exact hfirst.trans ((hp.filterMap _).trans hsecond.symm)

/-- Ends of runs over the same sources in some orders are the same. -/
theorem sameEnd_of_ends {first second : Except SessionError Outcome} (hp : sources ~ sources')
    (he : Ends options sources first) (he' : Ends options sources' second) :
    SameEnd first second := by
  have hlength := length_findings_perm options hp
  have hempty : findings options sources = [] ↔ findings options sources' = [] := by
    rw [← List.length_eq_zero_iff, hlength, List.length_eq_zero_iff]
  by_cases hn : findings options sources = []
  · have hn' := hempty.mp hn
    exact sameEnd_of_concludes (holdings_of_perm hp hn hn') rfl (concludes_of_ends hn he)
      (concludes_of_ends hn' he')
  · have hn' := mt hempty.mpr hn
    cases he with
    | rejected _ hplaces =>
      cases he' with
      | rejected _ hplaces' =>
        have hcount := congrArg List.length hplaces
        have hcount' := congrArg List.length hplaces'
        rw [List.length_map, List.length_map] at hcount hcount'
        exact hcount.trans (hlength.trans hcount'.symm)
      | unresolved h | unmerged h | finalized h => exact absurd h hn'
    | unresolved h | unmerged h | finalized h => exact absurd h hn

/-- With fragments rejected for errors, neither the order of the sources matters to how a run ends
nor the order in which their records come to the registry. -/
theorem run_perm (hr : options.onError = .reject) (hp : sources ~ sources') :
    SameEnd (run options sources).result (run options sources').result ∧
      ∀ arrivals arrivals', arrivals ~ recordsOf (afterParsing options sources).extracted →
        arrivals' ~ recordsOf (afterParsing options sources').extracted →
        SameEnd (runArriving options sources arrivals).result
          (runArriving options sources' arrivals').result := by
  refine ⟨sameEnd_of_ends hp (ends_run hr) (ends_run hr), ?_⟩
  intro arrivals arrivals' ha ha'
  exact sameEnd_of_ends hp (ends_runArriving ha hr) (ends_runArriving ha' hr)

theorem run_perm_core_ext :
    plain.onError = .reject ∧ [core, ext] ~ [ext, core] ∧
      ∃ outcome outcome', (run plain [core, ext]).result = .ok outcome ∧
        (run plain [ext, core]).result = .ok outcome' ∧ outcome.tree = outcome'.tree ∧
        outcome.order.map Record.identity = outcome'.order.map Record.identity := by
  have hp : [core, ext] ~ [ext, core] := List.Perm.swap ext core []
  have hsame : SameEnd (run plain [core, ext]).result (run plain [ext, core]).result :=
    (run_perm rfl hp).1
  obtain ⟨outcome, _, _, hr, _⟩ := run_core_ext
  refine ⟨rfl, hp, outcome, ?_⟩
  rw [hr] at hsame
  cases hr' : (run plain [ext, core]).result with
  | error e =>
    rw [hr'] at hsame
    exact absurd hsame id
  | ok outcome' =>
    rw [hr'] at hsame
    exact ⟨outcome', hr, rfl, hsame⟩

end Overlay.Session
