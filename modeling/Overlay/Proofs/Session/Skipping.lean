import Overlay.Proofs.Session.Conclusion

namespace Overlay.Session
open scoped List

variable {options options' : SessionOptions} {sources : List Source}

/-- Among themselves the accepted sources have no errors. -/
theorem findings_accepted (hr : options'.registration = options.registration) :
    findings options' (accepted options sources) = [] := by
  have hkeys := keys_extracted options' (accepted options sources)
  rw [hr] at hkeys
  have hheld := holdings_perm options sources
  -- each of the sources has a record, and no two of the records have one key
  have hnodup : ((recordsOf (afterParsing options' (accepted options sources)).extracted).map
      keyOf).Nodup := by
    rw [hkeys]
    exact (hheld.map _).nodup_iff.mp (holdings_keys_nodup options sources)
  have hlength : (recordsOf (afterParsing options' (accepted options sources)).extracted).length =
      (accepted options sources).length := by
    have hcount := congrArg List.length hkeys
    rw [List.length_map, List.length_map, ← hheld.length_eq] at hcount
    have hfst := congrArg List.length (holdings_fst options sources)
    rw [List.length_map, List.length_map] at hfst
    rw [hcount, hfst, length_accepted, Registry.size]
  have hsize := Registry.size_insertAll
    (recordsOf (afterParsing options' (accepted options sources)).extracted)
  rw [hnodup.dedup, List.length_map, hlength, ← (registered_eq _ _).1] at hsize
  have hsettled := length_findings options' (accepted options sources)
  exact List.length_eq_zero_iff.mp (by omega)

/-- The accepted sources by themselves hold what all sources together do. -/
theorem holdings_accepted (hr : options'.registration = options.registration) :
    holdings options' (accepted options sources) = holdings options sources := by
  apply holdings_eq_of_perm
  have hleft := holdings_perm options' (accepted options sources)
  rw [accepted_of_no_findings (findings_accepted hr), hr] at hleft
  exact hleft.trans (holdings_perm options sources).symm

/-- A run that goes on does not end with errors of fragments. -/
theorem Concludes.ne_fragments {result : Except SessionError Outcome}
    (h : Concludes options sources result) (errors : List FragmentError) :
    result ≠ .error (.fragments errors) := by
  intro he
  rw [he] at h
  exact nomatch h

/-- Skipping fragments with errors is leaving them out: the trees and the orders are the same, or
the errors of resolving or of merging are. This does not depend on the order in which the records
come to the registry, with all sources or with the accepted ones, which are always the same. -/
theorem run_skipping (options : SessionOptions) (sources : List Source) :
    let skipping := { options with onError := .skip }
    let rejecting := { options with onError := .reject }
    (SameEnd (run skipping sources).result (run rejecting (accepted skipping sources)).result ∧
      ∀ errors, (run skipping sources).result ≠ .error (.fragments errors)) ∧
    ∀ arrivals, arrivals ~ recordsOf (afterParsing skipping sources).extracted →
      faultless (arrived skipping sources arrivals).errors sources = accepted skipping sources ∧
      (∀ arrivals',
        arrivals' ~ recordsOf (afterParsing rejecting (accepted skipping sources)).extracted →
        SameEnd (runArriving skipping sources arrivals).result
          (runArriving rejecting (accepted skipping sources) arrivals').result) ∧
      ∀ errors, (runArriving skipping sources arrivals).result ≠ .error (.fragments errors) := by
  intro skipping rejecting
  -- the accepted sources have no errors, and they are held as before
  have hnone : findings rejecting (accepted skipping sources) = [] := findings_accepted rfl
  have hheld : holdings skipping sources = holdings rejecting (accepted skipping sources) :=
    (holdings_accepted rfl).symm
  have hskip : Concludes skipping sources (run skipping sources).result := concludes_run (.inr rfl)
  refine ⟨⟨?_, hskip.ne_fragments⟩, ?_⟩
  · exact sameEnd_of_concludes hheld rfl hskip (concludes_run (.inl hnone))
  · intro arrivals ha
    have harriving : Concludes skipping sources (runArriving skipping sources arrivals).result :=
      concludes_runArriving ha (.inr rfl)
    refine ⟨faultless_arrived ha, ?_, harriving.ne_fragments⟩
    intro arrivals' ha'
    exact sameEnd_of_concludes hheld rfl harriving (concludes_runArriving ha' (.inl hnone))

end Overlay.Session
