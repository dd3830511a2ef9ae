import Overlay.Proofs.Record
import Overlay.Proofs.Registry
import Overlay.Session

/-! What a session has done when it hands out an outcome. Every stage that succeeded leaves its
result in the session; the sources that parse become records, and each record is either held by the
registry or has an error of its own. -/
namespace Overlay.Session
open scoped List

/-- A session just before the outcome is handed out: what its stages have left behind. -/
structure Finished (options : SessionOptions) (sources : List Source) (outcome : Outcome)
    (s : Session) : Prop where
  options_eq : s.options = options
  sources_eq : s.sources = sources
  forests_eq : s.forests = (sources.mapIdx parseSource).map Except.toOption
  registry_eq : s.registry = (registerAll .empty s.extracted).1
  errors_eq : s.errors = sortErrors
    ((sources.mapIdx parseSource).filterMap error? ++ (registerAll .empty s.extracted).2)
  accepted : s.errors = [] ∨ options.onError = .skip
  resolved : s.registry.resolve options.hostVersion = .ok s.order
  merged : Tree.merge s.fragments = .ok outcome.tree
  order_eq : outcome.order = s.order
  report_eq : outcome.report = s.report

theorem result_of_enter {α : Type} {s : Session} {before next : Stage} {work : Session → Step α}
    (h : s.stage = before) :
    (s.enter before next work).result = (work { s with stage := next }).result ∧
      (s.enter before next work).session = (work { s with stage := next }).session := by
  simp [enter, h]

/-- If two stages in a row succeed, both do, and the second goes on from what the first left
behind. -/
theorem andThen_eq_ok {α β : Type} {step : Step α} {next : Session → Step β} {b : β}
    (h : (step.andThen next).result = .ok b) :
    (∃ a, step.result = .ok a) ∧ (next step.session).result = .ok b ∧
      (step.andThen next).session = (next step.session).session := by
  rw [Step.andThen] at h ⊢
  cases hr : step.result with
  | error e => simp [hr] at h
  | ok a => exact ⟨⟨a, rfl⟩, by simpa [hr] using h, rfl⟩

theorem andThen_of_ok {α β : Type} {step : Step α} {a : α} (next : Session → Step β)
    (h : step.result = .ok a) : (step.andThen next).result = (next step.session).result ∧
      (step.andThen next).session = (next step.session).session := by
  rw [Step.andThen]
  simp only [h, and_self]

section Settling

variable {s : Session} {records : List (Except FragmentError Record)} {registry : Registry}
  {lost : List FragmentError}

/-- A session goes on with a registry if there are no errors, or if they are skipped. -/
theorem settle_of_accepted
    (h : sortErrors (s.errors ++ lost) = [] ∨ s.options.onError = .skip) :
    (s.settle records registry lost).result = .ok () := by
  rw [settle]
  by_cases hn : (sortErrors (s.errors ++ lost)).isEmpty = true
  · simp only [hn, if_true]
  · have hskip : s.options.onError = .skip := h.resolve_left fun hnil => hn (by simp [hnil])
    simp only [hn, hskip]
    rfl

/-- With errors that are not skipped, registration fails with all of them. -/
theorem settle_of_rejected (hp : s.options.onError = .reject)
    (h : sortErrors (s.errors ++ lost) ≠ []) : (s.settle records registry lost).result =
      .error (.fragments (sortErrors (s.errors ++ lost))) := by
  have hn : (sortErrors (s.errors ++ lost)).isEmpty = false := List.isEmpty_eq_false_iff.mpr h
  rw [settle]
  simp only [hn, hp]
  rfl

/-- A registry and all errors are left behind, also by a session that fails. -/
theorem session_settle : (s.settle records registry lost).session.registry = registry ∧
    (s.settle records registry lost).session.errors = sortErrors (s.errors ++ lost) := by
  rw [settle]
  by_cases hn : (sortErrors (s.errors ++ lost)).isEmpty = true
  · simp only [hn, if_true, and_self]
  · simp only [hn]
    cases s.options.onError <;> exact ⟨rfl, rfl⟩

/-- A stage that goes on leaves the registry and the errors behind, and nothing else has changed. -/
theorem settle_eq_ok (h : (s.settle records registry lost).result = .ok ()) :
    (s.settle records registry lost).session =
        { s with registry := registry, errors := sortErrors (s.errors ++ lost) } ∧
      (sortErrors (s.errors ++ lost) = [] ∨ s.options.onError = .skip) := by
  rw [settle] at h ⊢
  by_cases hn : (sortErrors (s.errors ++ lost)).isEmpty = true
  · simp only [hn, if_true, true_and]
    exact Or.inl (List.isEmpty_iff.mp hn)
  · simp only [hn] at h ⊢
    cases hp : s.options.onError with
    | reject => simp [hp, fail] at h
    | skip => exact ⟨rfl, Or.inr rfl⟩

/-- The errors on the way to a registry count in their order. -/
theorem settle_congr {lost' : List FragmentError}
    (h : sortErrors (s.errors ++ lost) = sortErrors (s.errors ++ lost')) :
    s.settle records registry lost = s.settle records registry lost' := by
  rw [settle, settle, h]

end Settling

theorem enter_congr {α : Type} {s : Session} {before next : Stage} {work work' : Session → Step α}
    (h : work { s with stage := next } = work' { s with stage := next }) :
    s.enter before next work = s.enter before next work' := by
  rw [enter, enter, h]

theorem andThen_congr {α β : Type} {step : Step α} {next next' : Session → Step β}
    (h : next step.session = next' step.session) : step.andThen next = step.andThen next' := by
  rw [Step.andThen, Step.andThen, h]

/-- Registering is settling what the records lead to in the order of the inputs. -/
theorem register_eq_settle {s : Session} (hs : s.stage = .parsing) :
    let step := settle { s with stage := .registering } s.extracted
      (registerAll .empty s.extracted).1 (registerAll .empty s.extracted).2
    s.register.result = step.result ∧ s.register.session = step.session := result_of_enter hs

theorem registerArriving_eq_settle {s : Session} (hs : s.stage = .parsing)
    (arrivals : List Record) :
    let step := settle { s with stage := .registering } s.extracted
      (Registry.empty.insertAll arrivals).1
      (s.extracted.filterMap error? ++ (Registry.empty.insertAll arrivals).2)
    (registerArriving arrivals s).result = step.result ∧
      (registerArriving arrivals s).session = step.session := result_of_enter hs

theorem register_eq_ok {s : Session} (hs : s.stage = .parsing) (h : s.register.result = .ok ()) :
    let errors := sortErrors (s.errors ++ (registerAll .empty s.extracted).2)
    s.register.session = { s with
      stage := .registering
      registry := (registerAll .empty s.extracted).1
      errors := errors } ∧ (errors = [] ∨ s.options.onError = .skip) := by
  obtain ⟨hresult, hsession⟩ := register_eq_settle hs
  rw [hresult] at h
  rw [hsession]
  exact settle_eq_ok h

/-- What is resolved is kept in the session for merging. -/
theorem resolve_eq_ok {s : Session} (hs : s.stage = .registering) (h : s.resolve.result = .ok ()) :
    ∃ order, s.registry.resolve s.options.hostVersion = .ok order ∧
      s.resolve.session = { s with stage := .resolving, order := order } := by
  rw [resolve] at h ⊢
  rw [(result_of_enter hs).1] at h
  rw [(result_of_enter hs).2]
  simp only at h ⊢
  cases ho : s.registry.resolve s.options.hostVersion with
  | error e => simp [ho, fail] at h
  | ok order => exact ⟨order, rfl, rfl⟩

/-- The outcome is made of the merged tree, the order and the report. -/
theorem merge_eq_ok {s : Session} {outcome : Outcome} (hs : s.stage = .resolving)
    (h : s.merge.result = .ok outcome) :
    Tree.merge s.fragments = .ok outcome.tree ∧ outcome.order = s.order ∧
      outcome.report = s.report := by
  rw [merge, (result_of_enter hs).1] at h
  have hf : fragments { s with stage := .merging } = s.fragments := rfl
  simp only [hf] at h
  cases hm : Tree.merge s.fragments with
  | error e => simp [hm, fail] at h
  | ok tree =>
    simp only [hm, Except.ok.injEq] at h
    subst h
    exact ⟨rfl, rfl, rfl⟩

theorem register_of_accepted {s : Session} (hs : s.stage = .parsing)
    (h : sortErrors (s.errors ++ (registerAll .empty s.extracted).2) = [] ∨
      s.options.onError = .skip) : s.register.result = .ok () :=
  (register_eq_settle hs).1.trans (settle_of_accepted h)

theorem resolve_of_ok {s : Session} {order : List Record} (hs : s.stage = .registering)
    (h : s.registry.resolve s.options.hostVersion = .ok order) : s.resolve.result = .ok () := by
  rw [resolve, (result_of_enter hs).1]
  simp only [h]

theorem merge_of_ok {s : Session} {tree : Tree} (hs : s.stage = .resolving)
    (h : Tree.merge s.fragments = .ok tree) :
    s.merge.result = .ok ⟨tree, s.order, s.report⟩ := by
  rw [merge, (result_of_enter hs).1]
  have hf : fragments { s with stage := .merging } = s.fragments := rfl
  simp only [hf, h]
  rfl

/-- Behind every outcome there is a session that has come through all stages. -/
theorem finished_of_run {options : SessionOptions} {sources : List Source} {outcome : Outcome}
    (h : (run options sources).result = .ok outcome) :
    ∃ s, Finished options sources outcome s := by
  rw [run] at h
  obtain ⟨⟨_, hresolve⟩, hmerge, -⟩ := andThen_eq_ok h
  obtain ⟨⟨_, hregister⟩, hresolve, hlast⟩ := andThen_eq_ok hresolve
  obtain ⟨-, hregister, hmiddle⟩ := andThen_eq_ok hregister
  rw [hlast] at hmerge
  rw [hmiddle] at hmerge hresolve
  obtain ⟨hs, hok⟩ := register_eq_ok rfl hregister
  rw [hs] at hmerge hresolve
  obtain ⟨order, ho, hs⟩ := resolve_eq_ok rfl hresolve
  rw [hs] at hmerge
  obtain ⟨hm, hmo, hmr⟩ := merge_eq_ok rfl hmerge
  exact ⟨_, rfl, rfl, rfl, rfl, rfl, hok, ho, hm, hmo, hmr⟩

/-- Conversely, what the stages have to leave behind is enough for the outcome. -/
theorem run_of_finished {options : SessionOptions} {sources : List Source} {outcome : Outcome}
    {s : Session} (h : Finished options sources outcome s) :
    (run options sources).result = .ok outcome := by
  -- the session behind each stage, in which the fields set so far are those of `s`
  obtain ⟨s₁, hs₁⟩ : ∃ s₁, ((new options).parse sources).session = s₁ := ⟨_, rfl⟩
  have hparse : ((new options).parse sources).result = .ok () := rfl
  have hextracted : s.extracted = s₁.extracted := by
    rw [extracted, extracted, parsed, parsed, h.options_eq, h.sources_eq, h.forests_eq, ← hs₁]
    rfl
  have herrors : s.errors = sortErrors (s₁.errors ++ (registerAll .empty s₁.extracted).2) := by
    rw [h.errors_eq, hextracted, ← hs₁]
    rfl
  have hstage : s₁.stage = .parsing := by rw [← hs₁]; rfl
  have hoptions : s₁.options = options := by rw [← hs₁]; rfl
  have hregister := register_of_accepted hstage (by rw [← herrors, hoptions]; exact h.accepted)
  have hs₂ := (register_eq_ok hstage hregister).1
  obtain ⟨s₂, hd₂⟩ : ∃ s₂, s₁.register.session = s₂ := ⟨_, rfl⟩
  rw [hd₂, ← herrors, ← hextracted, ← h.registry_eq] at hs₂
  have hregistry : s₂.registry.resolve s₂.options.hostVersion = .ok s.order := by
    rw [hs₂, hoptions]
    exact h.resolved
  have hresolve := resolve_of_ok (by rw [hs₂]) hregistry
  obtain ⟨order, ho, hs₃⟩ := resolve_eq_ok (by rw [hs₂]) hresolve
  obtain rfl : s.order = order := by simpa [hregistry] using ho
  obtain ⟨s₃, hd₃⟩ : ∃ s₃, s₂.resolve.session = s₃ := ⟨_, rfl⟩
  rw [hd₃, hs₂] at hs₃
  have hforests : s₁.forests = s.forests := by rw [h.forests_eq, ← hs₁]; rfl
  have hsources : s₁.sources = s.sources := by rw [h.sources_eq, ← hs₁]; rfl
  have hfragments : s₃.fragments = s.fragments := by
    rw [hs₃, fragments, fragments]
    simp only [forest?, hforests]
  have hreport : s₃.report = s.report := by
    rw [hs₃, report, report]
    simp only [reportOf, hsources]
  have hmerge := merge_of_ok (by rw [hs₃]) (hfragments ▸ h.merged)
  have houtcome : Outcome.mk outcome.tree s₃.order s₃.report = outcome := by
    rw [hreport, ← h.report_eq, hs₃, ← h.order_eq]
  rw [houtcome] at hmerge
  have hfirst := andThen_of_ok register hparse
  rw [hs₁, hd₂] at hfirst
  have hsecond := andThen_of_ok resolve (hfirst.1.trans hregister)
  rw [hfirst.2, hd₃] at hsecond
  have hthird := andThen_of_ok merge (hsecond.1.trans hresolve)
  rw [hsecond.2] at hthird
  exact hthird.1.trans hmerge

theorem eq_ok_of_toOption {ε α : Type} {x : Except ε α} {a : α} (h : x.toOption = some a) :
    x = .ok a := by
  cases x with
  | error e => simp [Except.toOption] at h
  | ok b => simpa [Except.toOption] using h

def recordsOf (attempts : List (Except FragmentError Record)) : List Record :=
  attempts.filterMap Except.toOption

/-- Registering attempts is inserting the records among them, and reporting the others too. -/
theorem registerAll_eq (r : Registry) (attempts : List (Except FragmentError Record)) :
    (registerAll r attempts).1 = (r.insertAll (recordsOf attempts)).1 ∧
      (registerAll r attempts).2 ~
        attempts.filterMap error? ++ (r.insertAll (recordsOf attempts)).2 := by
  induction attempts generalizing r with
  | nil => exact ⟨rfl, List.Perm.refl _⟩
  | cons attempt attempts ih =>
    cases attempt with
    | error e => exact ⟨(ih r).1, (ih r).2.cons e⟩
    | ok x =>
      obtain ⟨hr, he⟩ := ih (r.insert x).1
      refine ⟨hr, (he.append_left (r.insert x).2.toList).trans ?_⟩
      exact List.perm_append_comm_assoc _ _ _

variable {options : SessionOptions} {sources : List Source} {outcome : Outcome} {s : Session}

/-- The sources that a session has parsed are those with a text that parses. -/
theorem Finished.mem_parsed (h : Finished options sources outcome s) {index : Nat}
    {source : Source} {forest : Forest} : (index, source, forest) ∈ s.parsed ↔
      sources[index]? = some source ∧ Fragment.parse source.text = .ok forest := by
  have hforest : s.forests[index]? =
      (sources[index]?.map (parseSource index)).map Except.toOption := by
    rw [h.forests_eq, List.getElem?_map, List.getElem?_mapIdx]
  have hparse : (parseSource index source).toOption = some forest ↔
      Fragment.parse source.text = .ok forest := by
    rw [parseSource]
    cases Fragment.parse source.text <;> simp [Except.mapError, Except.toOption]
  rw [parsed, h.sources_eq, List.mem_filterMap]
  constructor
  · rintro ⟨⟨⟨source', result⟩, index'⟩, hm, he⟩
    cases result with
    | none => simp at he
    | some forest' =>
      simp only [Option.map_some, Option.some.injEq, Prod.mk.injEq] at he
      obtain ⟨rfl, rfl, rfl⟩ := he
      rw [List.mem_zipIdx_iff_getElem?, List.getElem?_zip_eq_some, hforest] at hm
      obtain ⟨hs, hf⟩ := hm
      rw [hs] at hf
      exact ⟨hs, hparse.mp (Option.some.inj hf)⟩
  · rintro ⟨hs, hp⟩
    refine ⟨((source, some forest), index), ?_, rfl⟩
    rw [List.mem_zipIdx_iff_getElem?, List.getElem?_zip_eq_some, hforest, hs]
    exact ⟨rfl, congrArg some (hparse.mpr hp)⟩

theorem parsed_ascending (s : Session) : s.parsed.Pairwise fun a b => a.1 < b.1 := by
  rw [parsed, List.pairwise_filterMap]
  have hz : ((s.sources.zip s.forests).zipIdx).Pairwise fun a b => a.2 < b.2 := by
    apply List.pairwise_map.mp
    rw [List.zipIdx_map_snd]
    exact List.pairwise_lt_range'
  apply hz.imp
  rintro ⟨⟨source, forest⟩, i⟩ ⟨⟨source', forest'⟩, j⟩ hlt a ha b hb
  cases forest <;> cases forest' <;> simp_all
  rw [← ha, ← hb]
  exact hlt

/-- No two records of a session stand at one place among the inputs. -/
theorem index_nodup (s : Session) : ((recordsOf s.extracted).map Record.index).Nodup := by
  rw [recordsOf, extracted, List.filterMap_map]
  apply List.pairwise_map.mpr
  apply List.pairwise_filterMap.mpr
  apply s.parsed_ascending.imp
  rintro ⟨i, source, forest⟩ ⟨j, source', forest'⟩ hlt x hx y hy
  have hxi := (Record.extract_cases (eq_ok_of_toOption hx)).1
  have hyi := (Record.extract_cases (eq_ok_of_toOption hy)).1
  rw [hxi, hyi]
  exact Nat.ne_of_lt hlt

/-- The errors come from parsing, from extraction, or from insertion into the registry. -/
theorem Finished.errors_perm (h : Finished options sources outcome s) : s.errors ~
    (sources.mapIdx parseSource).filterMap error? ++ (s.extracted.filterMap error? ++
      (Registry.empty.insertAll (recordsOf s.extracted)).2) := by
  rw [h.errors_eq]
  exact (List.mergeSort_perm _ _).trans ((registerAll_eq _ _).2.append_left _)

theorem Finished.registry_ascending (h : Finished options sources outcome s) :
    Registry.Ascending s.registry.records := by
  rw [h.registry_eq, (registerAll_eq _ _).1]
  exact Registry.ascending_insertAll _ List.Pairwise.nil

theorem Finished.eq_of_index (h : Finished options sources outcome s) {x y : Record}
    (hx : x ∈ s.registry.records) (hy : y ∈ s.registry.records) (hi : x.index = y.index) :
    x = y := by
  obtain ⟨conflicts, _, hperm, _⟩ := Registry.insertAll_conflicts .empty (recordsOf s.extracted)
    (by simpa [Registry.empty] using s.index_nodup)
  have hextracted : ∀ z ∈ s.registry.records, z ∈ recordsOf s.extracted := by
    intro z hz
    rw [h.registry_eq, (registerAll_eq _ _).1] at hz
    have hm := hperm.mem_iff.mp (List.mem_append_right _ hz)
    simpa [Registry.empty] using hm
  exact List.inj_on_of_nodup_map s.index_nodup (hextracted x hx) (hextracted y hy) hi

/-- A source that parses and has no error is held by the registry as a record. -/
theorem Finished.held (h : Finished options sources outcome s) {index : Nat} {source : Source}
    {forest : Forest} (hs : sources[index]? = some source)
    (hp : Fragment.parse source.text = .ok forest) (hn : ∀ e ∈ s.errors, e.index ≠ index) :
    ∃ x ∈ s.registry.records, Record.extract options.registration source index forest = .ok x := by
  have hm : Record.extract options.registration source index forest ∈ s.extracted := by
    rw [← h.options_eq]
    exact List.mem_map.mpr ⟨(index, source, forest), h.mem_parsed.mpr ⟨hs, hp⟩, rfl⟩
  -- otherwise one of the errors would stand at its place
  cases hx : Record.extract options.registration source index forest with
  | error e =>
    have he : e ∈ s.errors := by
      apply h.errors_perm.mem_iff.mpr
      apply List.mem_append_right
      apply List.mem_append_left
      exact List.mem_filterMap.mpr ⟨_, hx ▸ hm, rfl⟩
    exact absurd (Record.index_of_extract_error hx) (hn e he)
  | ok x =>
    refine ⟨x, ?_, rfl⟩
    have hxm : x ∈ recordsOf s.extracted := List.mem_filterMap.mpr ⟨_, hx ▸ hm, rfl⟩
    obtain ⟨conflicts, he, hperm, _⟩ := Registry.insertAll_conflicts .empty (recordsOf s.extracted)
      (by simpa [Registry.empty] using s.index_nodup)
    -- what is inserted is held or lost, and what is lost has an error
    rcases List.mem_append.mp (hperm.mem_iff.mpr (List.mem_append_left _ hxm)) with hl | hr
    · obtain ⟨c, hc, rfl⟩ := List.mem_map.mp hl
      have hlost : c.error ∈ s.errors := by
        apply h.errors_perm.mem_iff.mpr
        apply List.mem_append_right
        apply List.mem_append_right
        exact he ▸ List.mem_map_of_mem hc
      exact absurd (Record.extract_cases hx).1 (hn _ hlost)
    · rw [h.registry_eq, (registerAll_eq _ _).1]
      exact hr

/-- A fragment is reported as merged exactly if no error stands at its place. -/
theorem merged_iff_no_error (s : Session) (index : Nat) :
    (∃ f ∈ s.report.fragments, f.index = index ∧ f.status = .merged) ↔
      index < s.sources.length ∧ ∀ e ∈ s.errors, e.index ≠ index := by
  have hstatus (source : Source) :
      (s.reportOf source index).status = .merged ↔ ∀ e ∈ s.errors, e.index ≠ index := by
    rw [reportOf]
    by_cases ha : (s.errors.any fun e => e.index = index) = true
    · simp only [ha, if_true]
      simpa using ha
    · simp only [ha]
      simpa using ha
  constructor
  · rintro ⟨f, hf, hi, hm⟩
    obtain ⟨i, hl, rfl⟩ := List.mem_mapIdx.mp hf
    obtain rfl : i = index := hi
    exact ⟨hl, (hstatus _).mp hm⟩
  · rintro ⟨hl, hn⟩
    exact ⟨_, List.mem_mapIdx.mpr ⟨index, hl, rfl⟩, rfl, (hstatus _).mpr hn⟩

end Overlay.Session
