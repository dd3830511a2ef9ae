import Overlay.Proofs.Session.Conclusion

namespace Overlay.Session
open scoped List

/-- An entry of the report, against the order and the errors. -/
structure Reports (outcome : Outcome) (source : Source) (index : Nat) (f : FragmentReport) :
    Prop where
  index_eq : f.index = index
  source_eq : f.source = source.name
  merged_iff_placed : f.status = .merged ↔ (outcome.order.map Record.index).count index = 1
  merged_iff_identity : f.status = .merged ↔ f.identity.isSome
  skipped_iff : f.status = .skipped ↔
    (outcome.report.errors.map FragmentError.index).count index = 1
  not_failed : f.status ≠ .failed

/-- A record and the fragment that is merged for it, against the source that they come from. -/
structure Origin (source : Source) (r : Record) (fragment : String × Forest) : Prop where
  source_eq : r.source = source.name
  digest_eq : r.digest = Digest.ofText source.text
  name_eq : fragment.1 = source.name
  parsed : Fragment.parse source.text = .ok fragment.2

/-- An outcome that accounts for every source. -/
structure Accounts (sources : List Source) (outcome : Outcome) : Prop where
  fragments : List.Forall₂ (fun p f => Reports outcome p.1 p.2 f) sources.zipIdx
    outcome.report.fragments
  ascending : outcome.report.errors.Pairwise fun a b => a.index < b.index
  total : outcome.report.count .merged + outcome.report.count .skipped = sources.length
  merged : outcome.report.count .merged = outcome.order.length
  origins : ∃ fragments, List.Forall₂
    (fun r fragment => ∃ source, sources[r.index]? = some source ∧ Origin source r fragment)
    outcome.order fragments ∧ Tree.merge fragments = .ok outcome.tree

variable {options : SessionOptions} {sources : List Source} {outcome : Outcome} {s : Session}
  {index : Nat}

/-- The report on a source depends on what is held and on the places of the errors. -/
theorem reportOf_eq (s : Session) (source : Source) (index : Nat) :
    s.reportOf source index = ⟨index, source.name,
      (s.registry.records.find? fun r => r.index = index).map Record.identity,
      if index ∈ s.errors.map FragmentError.index then .skipped else .merged⟩ := by
  have hany : (s.errors.any fun e => e.index = index) = true ↔
      index ∈ s.errors.map FragmentError.index := by simp
  rw [reportOf]
  simp only [hany]

/-- A fragment is reported with an identity exactly if its record is held. -/
theorem isSome_identity (s : Session) (source : Source) (index : Nat) :
    (s.reportOf source index).identity.isSome ↔
      index ∈ s.registry.records.map Record.index := by
  simp [reportOf_eq]

section Finished

variable (h : Finished options sources outcome s)
include h

/-- A finished session has the records that its sources had behind the first stage. -/
theorem Finished.extracted_eq : s.extracted = (afterParsing options sources).extracted := by
  rw [extracted, extracted, parsed, parsed, h.options_eq, h.sources_eq, h.forests_eq]
  rfl

theorem Finished.registered_eq : s.registry = (registered options sources).1 := by
  rw [h.registry_eq, h.extracted_eq]
  rfl

theorem Finished.findings_eq : s.errors = findings options sources := by
  rw [h.errors_eq, h.extracted_eq]
  rfl

theorem Finished.report_errors : outcome.report.errors = findings options sources := by
  rw [h.report_eq, ← h.findings_eq]
  rfl

theorem Finished.forest_eq (r : Record) :
    s.forest? r = (afterParsing options sources).forest? r := by
  rw [forest?, forest?, h.forests_eq]
  rfl

/-- The order holds exactly the records that are held. -/
theorem Finished.order_perm : outcome.order ~ (registered options sources).1.records := by
  have hr := h.resolved
  rw [h.registered_eq, ← h.order_eq] at hr
  exact Registry.resolve_perm (ascending_registered options sources) hr

/-- A place is that of one error or of one record in the order. -/
theorem Finished.places_perm : outcome.report.errors.map FragmentError.index ++
    outcome.order.map Record.index ~ List.range sources.length := by
  rw [h.report_errors]
  exact ((h.order_perm.map _).append_left _).trans (places_settled options sources)

theorem Finished.places_nodup : (outcome.report.errors.map FragmentError.index ++
    outcome.order.map Record.index).Nodup := h.places_perm.nodup_iff.mpr List.nodup_range

theorem Finished.count_places (hi : index < sources.length) :
    (outcome.report.errors.map FragmentError.index).count index +
      (outcome.order.map Record.index).count index = 1 := by
  rw [← List.count_append, h.places_perm.count_eq]
  exact List.count_eq_one_of_mem List.nodup_range (List.mem_range.mpr hi)

/-- The entry for a source tells what has become of it. -/
theorem Finished.reports {source : Source} (hs : sources[index]? = some source) :
    Reports outcome source index (s.reportOf source index) := by
  obtain ⟨hi, -⟩ := List.getElem?_eq_some_iff.mp hs
  have hcount := h.count_places hi
  have herror : index ∈ s.errors.map FragmentError.index ↔
      0 < (outcome.report.errors.map FragmentError.index).count index := by
    rw [h.report_eq, List.count_pos_iff]
    rfl
  have hheld : (s.reportOf source index).identity.isSome ↔
      0 < (outcome.order.map Record.index).count index := by
    rw [isSome_identity, h.registered_eq, List.count_pos_iff, (h.order_perm.map _).mem_iff]
  have hstatus : (s.reportOf source index).status =
      if 0 < (outcome.report.errors.map FragmentError.index).count index then .skipped
      else .merged := by
    rw [reportOf_eq]
    simp only [herror]
  -- the source is held or has an error, since the two counts add up to one
  by_cases he : 0 < (outcome.report.errors.map FragmentError.index).count index
  · rw [if_pos he] at hstatus
    refine ⟨rfl, rfl, ?_, ?_, ?_, by simp [hstatus]⟩
    · simp only [hstatus, reduceCtorEq, false_iff]
      omega
    · simp only [hstatus, hheld, reduceCtorEq, false_iff]
      omega
    · simp only [hstatus, true_iff]
      omega
  · rw [if_neg he] at hstatus
    refine ⟨rfl, rfl, ?_, ?_, ?_, by simp [hstatus]⟩
    · simp only [hstatus, true_iff]
      omega
    · simp only [hstatus, hheld, true_iff]
      omega
    · simp only [hstatus, reduceCtorEq, false_iff]
      omega

theorem Finished.report_fragments : outcome.report.fragments =
    sources.zipIdx.map fun p => s.reportOf p.1 p.2 := by
  rw [h.report_eq, report, List.mapIdx_eq_zipIdx_map, h.sources_eq]

theorem Finished.forall_reports :
    List.Forall₂ (fun p f => Reports outcome p.1 p.2 f) sources.zipIdx
      outcome.report.fragments := by
  rw [h.report_fragments, List.forall₂_map_right_iff, List.forall₂_same]
  rintro ⟨source, index⟩ hm
  exact h.reports (List.mem_zipIdx_iff_getElem?.mp hm)

/-- No two errors stand at one place, and they come in the order of the inputs. -/
theorem Finished.errors_ascending :
    outcome.report.errors.Pairwise fun a b => a.index < b.index := by
  have hsorted : outcome.report.errors.Pairwise fun a b => a.index ≤ b.index := by
    rw [h.report_errors]
    exact Registry.sortErrors_ascending _
  have hnodup := h.places_nodup.of_append_left
  exact hsorted.imp₂ (fun _ _ hle hne => lt_of_le_of_ne hle hne) (List.pairwise_map.mp hnodup)

/-- As many fragments are reported as merged as there are records in the order. -/
theorem Finished.count_merged : outcome.report.count .merged = outcome.order.length := by
  have hplaced : outcome.report.count .merged =
      (List.range sources.length).countP fun i => i ∈ outcome.order.map Record.index := by
    rw [Report.count, h.report_fragments, ← zipIdx_places, List.countP_map, List.countP_map]
    apply List.countP_congr
    rintro ⟨source, index⟩ hm
    have hr := h.reports (List.mem_zipIdx_iff_getElem?.mp hm)
    have honce := List.nodup_iff_count_le_one.mp h.places_nodup.of_append_right index
    simp only [Function.comp_apply, decide_eq_true_eq, hr.merged_iff_placed]
    rw [← List.count_pos_iff]
    omega
  have herrors : (outcome.report.errors.map FragmentError.index).countP
      (fun i => i ∈ outcome.order.map Record.index) = 0 := by
    apply List.countP_eq_zero.mpr
    intro i hi hm
    exact List.disjoint_of_nodup_append h.places_nodup hi (of_decide_eq_true hm)
  rw [hplaced, ← h.places_perm.countP_eq, List.countP_append, herrors, zero_add,
    List.countP_eq_length.mpr fun i hi => decide_eq_true hi, List.length_map]

/-- Every fragment is merged or skipped. -/
theorem Finished.count_total :
    outcome.report.count .merged + outcome.report.count .skipped = sources.length := by
  have hskipped : outcome.report.count .skipped =
      outcome.report.fragments.countP fun f => ¬ decide (f.status = .merged) = true := by
    apply List.countP_congr
    intro f hf
    -- there is no third status
    have hnot : f.status ≠ .failed := by
      rw [h.report_fragments] at hf
      obtain ⟨⟨source, index⟩, hm, rfl⟩ := List.mem_map.mp hf
      exact (h.reports (List.mem_zipIdx_iff_getElem?.mp hm)).not_failed
    cases hs : f.status <;> simp_all
  have hlength : outcome.report.fragments.length = sources.length := by
    rw [h.report_fragments, List.length_map, List.length_zipIdx]
  rw [hskipped, Report.count, ← hlength]
  exact (List.length_eq_countP_add_countP _).symm

end Finished

/-- A record that is held was read off the source at its place. -/
theorem source_of_held {r : Record} (hr : r ∈ (registered options sources).1.records) :
    ∃ source forest, sources[r.index]? = some source ∧
      (afterParsing options sources).forest? r = some forest ∧
      Origin source r (r.source, forest) := by
  have hm := List.mem_of_mem_filter ((held_perm options sources).mem_iff.mp hr)
  rw [recordsOf_extracted] at hm
  obtain ⟨c, hc, rfl⟩ := List.mem_map.mp hm
  have hforest := forest_of_contribution hc
  rw [contributions_afterParsing] at hc
  obtain ⟨⟨source, index⟩, hz, hx⟩ := List.mem_filterMap.mp hc
  obtain ⟨forest, hd, hx⟩ := Option.bind_eq_some_iff.mp hx
  obtain ⟨r, hread, rfl⟩ := Option.map_eq_some_iff.mp hx
  have hextract := eq_ok_of_toOption hread
  obtain ⟨hindex, hsource, -⟩ := Record.extract_cases hextract
  have hplace : sources[r.index]? = some source := by
    rw [hindex]
    exact List.mem_zipIdx_iff_getElem?.mp hz
  exact ⟨source, forest, hplace, hforest,
    hsource, Record.digest_of_extract hextract, hsource, eq_ok_of_toOption hd⟩

theorem forall₂_filterMap {α β : Type} {R : α → β → Prop} {f : α → Option β} {xs : List α}
    (h : ∀ x ∈ xs, ∃ y, f x = some y ∧ R x y) : List.Forall₂ R xs (xs.filterMap f) := by
  induction xs with
  | nil => exact .nil
  | cons x xs ih =>
    obtain ⟨⟨y, hy, hxy⟩, hrest⟩ := List.forall_mem_cons.mp h
    rw [List.filterMap_cons_some hy]
    exact .cons hxy (ih hrest)

/-- What is merged for each record of the order was parsed from the source at its place. -/
theorem Finished.origins (h : Finished options sources outcome s) : ∃ fragments, List.Forall₂
    (fun r fragment => ∃ source, sources[r.index]? = some source ∧ Origin source r fragment)
    outcome.order fragments ∧ Tree.merge fragments = .ok outcome.tree := by
  refine ⟨s.fragments, ?_, h.merged⟩
  rw [h.order_eq, fragments]
  apply forall₂_filterMap
  intro r hr
  rw [← h.order_eq] at hr
  obtain ⟨source, forest, hplace, hforest, horigin⟩ :=
    source_of_held (h.order_perm.mem_iff.mp hr)
  exact ⟨_, by rw [h.forest_eq, hforest]; rfl, source, hplace, horigin⟩

/-- Altogether, a finished session accounts for its sources. -/
theorem Finished.accounts (h : Finished options sources outcome s) : Accounts sources outcome :=
  ⟨h.forall_reports, h.errors_ascending, h.count_total, h.count_merged, h.origins⟩

/-- A finished session accounts for each of its sources once. This does not depend on the order in
which the records have come to the registry: it would hold the same ones, and the entries of the
report and the places of the errors would be the same. -/
theorem run_accounts (options : SessionOptions) (sources : List Source) (outcome : Outcome)
    (h : (run options sources).result = .ok outcome) :
    Accounts sources outcome ∧
      ∀ arrivals, arrivals ~ recordsOf (afterParsing options sources).extracted →
        (arrived options sources arrivals).registry = (registered options sources).1 ∧
        (arrived options sources arrivals).report.fragments = outcome.report.fragments ∧
        (arrived options sources arrivals).report.errors.map FragmentError.index =
          outcome.report.errors.map FragmentError.index := by
  obtain ⟨s, hs⟩ := finished_of_run h
  refine ⟨hs.accounts, ?_⟩
  intro arrivals ha
  have hregistry := registry_arrived ha
  have hplaces : (arrived options sources arrivals).errors.map FragmentError.index =
      s.errors.map FragmentError.index := by rw [error_places_arrived ha, hs.findings_eq]
  refine ⟨hregistry, ?_, ?_⟩
  · rw [hs.report_fragments, report, List.mapIdx_eq_zipIdx_map]
    apply List.map_congr_left
    rintro ⟨source, index⟩ _
    dsimp only
    rw [reportOf_eq, reportOf_eq, hregistry, hs.registered_eq, hplaces]
  · rw [hs.report_eq]
    exact hplaces

def lenient : SessionOptions := ⟨.default, none, .skip, true⟩

def uneven : List Source := [⟨"a", "class A{};", none⟩, ⟨"b", "class", none⟩]

theorem run_uneven : ∃ outcome, (run lenient uneven).result = .ok outcome := by
  have hends : Concludes lenient uneven (run lenient uneven).result := concludes_run (.inr rfl)
  have hmerges : (((registered lenient uneven).1.resolve none).toOption.any fun order =>
      (Tree.merge (arranged lenient uneven order)).isOk) = true := by decide +kernel
  cases hr : (run lenient uneven).result with
  | ok outcome => exact ⟨outcome, rfl⟩
  | error e =>
    rw [hr] at hends
    cases hends with
    | unresolved hresolved =>
      rw [show (registered lenient uneven).1.resolve none = _ from hresolved] at hmerges
      exact absurd hmerges Bool.false_ne_true
    | unmerged hresolved hm =>
      rw [show (registered lenient uneven).1.resolve none = _ from hresolved, Except.toOption,
        Option.any_some, hm] at hmerges
      exact absurd hmerges Bool.false_ne_true

theorem run_accounts_uneven : ∃ outcome, (run lenient uneven).result = .ok outcome ∧
    Accounts uneven outcome := by
  obtain ⟨outcome, hr⟩ := run_uneven
  exact ⟨outcome, hr, (run_accounts lenient uneven outcome hr).1⟩

end Overlay.Session
