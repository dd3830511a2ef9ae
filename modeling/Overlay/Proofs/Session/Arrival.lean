import Overlay.Proofs.Registry.Scheduling
import Overlay.Proofs.Session.Accounts

/-! Records that come to the registry in any order. What is held is always the same, and so are the
errors and their places, except for the holder that the error of a duplicate names. -/
namespace Overlay.Session
open Registry (withoutHolder)
open scoped List

/-- The session behind registration if its records come to the registry in some order. -/
def arrived (options : SessionOptions) (sources : List Source) (arrivals : List Record) :
    Session :=
  let (registry, lost) := Registry.empty.insertAll arrivals
  let s := afterParsing options sources
  { s with
    stage := .registering
    registry
    errors := sortErrors (s.errors ++ (s.extracted.filterMap error? ++ lost)) }

def faultless (errors : List FragmentError) (sources : List Source) : List Source :=
  (sources.zipIdx.filter fun (_, index) => errors.all fun e => e.index ≠ index).map Prod.fst

variable {options : SessionOptions} {sources : List Source} {arrivals : List Record}

section Arrivals

variable (ha : arrivals ~ recordsOf (afterParsing options sources).extracted)
include ha

/-- In whichever order the records come, the same ones are held. -/
theorem registry_arrived :
    (arrived options sources arrivals).registry = (registered options sources).1 := by
  have hd := (ha.map Record.index).nodup_iff.mpr (afterParsing options sources).index_nodup
  rw [(registered_eq options sources).1]
  exact Registry.insertAll_perm hd ha

/-- Each place is that of one error or of one record that is held, whatever the order of arrival. -/
theorem places_arrived : (arrived options sources arrivals).errors.map FragmentError.index ++
    (registered options sources).1.records.map Record.index ~ List.range sources.length := by
  have hd := (ha.map Record.index).nodup_iff.mpr (afterParsing options sources).index_nodup
  have hinserted := (places_inserted hd).trans (ha.map Record.index)
  have hregistry : (Registry.empty.insertAll arrivals).1 = (registered options sources).1 :=
    registry_arrived ha
  rw [hregistry] at hinserted
  have herrors : (arrived options sources arrivals).errors ~
      (afterParsing options sources).errors ++
        ((afterParsing options sources).extracted.filterMap error? ++
          (Registry.empty.insertAll arrivals).2) := List.mergeSort_perm _ _
  have hplaces := herrors.map FragmentError.index
  rw [List.map_append, List.map_append] at hplaces
  refine (hplaces.append_right _).trans ?_
  rw [List.append_assoc, List.append_assoc]
  have hextracted := places_extracted (afterParsing options sources)
  exact (((hinserted.append_left _).trans hextracted).append_left _).trans
    (places_parsed options sources)

/-- In whichever order the records come, the errors stand at the same places. -/
theorem error_places_arrived : (arrived options sources arrivals).errors.map FragmentError.index =
    (findings options sources).map FragmentError.index := by
  have hperm := (List.perm_append_right_iff _).mp
    ((places_arrived ha).trans (places_settled options sources).symm)
  have hsorted (errors : List FragmentError) :
      ((sortErrors errors).map FragmentError.index).Pairwise (· ≤ ·) :=
    List.pairwise_map.mpr (Registry.sortErrors_ascending errors)
  exact hperm.eq_of_pairwise (fun _ _ _ _ => Nat.le_antisymm) (hsorted _) (hsorted _)

/-- No two errors stand at one place. -/
theorem index_nodup_arrived :
    ((arrived options sources arrivals).errors.map FragmentError.index).Nodup :=
  ((places_arrived ha).nodup_iff.mpr List.nodup_range).of_append_left

/-- In whichever order the records come, the errors are the same but for the holders. -/
theorem errors_arrived : (arrived options sources arrivals).errors.map withoutHolder =
    (findings options sources).map withoutHolder := by
  have hd := (ha.map Record.index).nodup_iff.mpr (afterParsing options sources).index_nodup
  have hlost := Registry.map_errors_perm (f := withoutHolder) (fun _ _ _ => rfl) hd ha
  have hperm : (arrived options sources arrivals).errors.map withoutHolder ~
      (findings options sources).map withoutHolder := by
    refine ((List.mergeSort_perm _ _).map withoutHolder).trans ?_
    refine List.Perm.trans ?_ ((findings_perm options sources).map withoutHolder).symm
    rw [List.map_append, List.map_append, List.map_append, List.map_append]
    exact (hlost.append_left _).append_left _
  -- both lists are sorted by the places, and the holders do not count for these
  have hsorted (errors : List FragmentError) : ((sortErrors errors).map withoutHolder).Pairwise
      fun a b => a.index ≤ b.index := by
    simpa only [List.pairwise_map, Registry.index_withoutHolder] using
      Registry.sortErrors_ascending errors
  refine Registry.eq_of_perm_of_index FragmentError.index hperm ?_ (hsorted _) (hsorted _)
  have hindex : FragmentError.index ∘ withoutHolder = FragmentError.index :=
    funext Registry.index_withoutHolder
  rw [List.map_map, hindex]
  exact index_nodup_arrived ha

/-- In whichever order the records come, the same sources are accepted. -/
theorem faultless_arrived :
    faultless (arrived options sources arrivals).errors sources = accepted options sources := by
  have hall (errors : List FragmentError) (index : Nat) : (errors.all fun e => e.index ≠ index) =
      (errors.map FragmentError.index).all fun i => i ≠ index := by
    rw [List.all_map]
    rfl
  rw [accepted_eq, faultless]
  simp only [spared, hall, error_places_arrived ha]

/-- Whether there are errors does not depend on the order in which the records come. -/
theorem no_errors_arrived :
    (arrived options sources arrivals).errors = [] ↔ findings options sources = [] := by
  have hplaces := congrArg List.length (error_places_arrived ha)
  rw [List.length_map, List.length_map] at hplaces
  rw [← List.length_eq_zero_iff, hplaces, List.length_eq_zero_iff]

end Arrivals

/-- The order of the inputs is one of those in which the records may come. -/
theorem errors_in_order (options : SessionOptions) (sources : List Source) :
    (arrived options sources (recordsOf (afterParsing options sources).extracted)).errors =
      findings options sources := by
  have hplaces := index_nodup_arrived (List.Perm.refl (recordsOf (afterParsing options
    sources).extracted))
  refine Registry.eq_of_perm_of_index FragmentError.index ?_ hplaces
    (Registry.sortErrors_ascending _) (Registry.sortErrors_ascending _)
  exact (List.mergeSort_perm _ _).trans (findings_perm options sources).symm

/-- What registering leaves behind, also when the session fails. -/
theorem session_registerArriving (options : SessionOptions) (sources : List Source)
    (arrivals : List Record) :
    (registerArriving arrivals (afterParsing options sources)).session.registry =
        (arrived options sources arrivals).registry ∧
      (registerArriving arrivals (afterParsing options sources)).session.errors =
        (arrived options sources arrivals).errors := by
  rw [(registerArriving_eq_settle rfl arrivals).2]
  exact session_settle

/-- A session that goes on is the one that is described. -/
theorem registerArriving_of_accepted
    (h : (arrived options sources arrivals).errors = [] ∨ options.onError = .skip) :
    (registerArriving arrivals (afterParsing options sources)).result = .ok () ∧
      (registerArriving arrivals (afterParsing options sources)).session =
        arrived options sources arrivals := by
  obtain ⟨hresult, hsession⟩ :=
    registerArriving_eq_settle (s := afterParsing options sources) rfl arrivals
  have hok := hresult.trans (settle_of_accepted h)
  exact ⟨hok, hsession.trans (settle_eq_ok (hresult.symm.trans hok)).1⟩

/-- A session that rejects errors fails with those that are described. -/
theorem registerArriving_of_rejected (hp : options.onError = .reject)
    (h : (arrived options sources arrivals).errors ≠ []) :
    (registerArriving arrivals (afterParsing options sources)).result =
      .error (.fragments (arrived options sources arrivals).errors) := by
  rw [(registerArriving_eq_settle rfl arrivals).1]
  exact settle_of_rejected hp h

/-- Registering in the order of the inputs is registering records that come in that order. -/
theorem registerArriving_in_order (options : SessionOptions) (sources : List Source) :
    registerArriving (recordsOf (afterParsing options sources).extracted)
      (afterParsing options sources) = (afterParsing options sources).register := by
  rw [registerArriving, register]
  apply enter_congr
  dsimp only
  have hregistry := (registered_eq options sources).1
  refine Eq.trans (settle_congr (errors_in_order options sources)) ?_
  exact congrArg (settle _ _ · _) hregistry.symm

/-- So a run in the order of the inputs is one of the runs with an order of arrival. -/
theorem runArriving_in_order (options : SessionOptions) (sources : List Source) :
    runArriving options sources (recordsOf (afterParsing options sources).extracted) =
      run options sources := by
  rw [runArriving, andThen_congr (registerArriving_in_order options sources)]
  rfl

end Overlay.Session
