import Overlay.Proofs.Registry.Contents
import Overlay.Proofs.Session

namespace Overlay.Session
open Record (unplaced)
open scoped List

def afterParsing (options : SessionOptions) (sources : List Source) : Session :=
  ((new options).parse sources).session

def registered (options : SessionOptions) (sources : List Source) :
    Registry × List FragmentError :=
  registerAll .empty (afterParsing options sources).extracted

def findings (options : SessionOptions) (sources : List Source) : List FragmentError :=
  sortErrors ((afterParsing options sources).errors ++ (registered options sources).2)

/-- The sources without an error when they have been registered. -/
def accepted (options : SessionOptions) (sources : List Source) : List Source :=
  let errors := (((new options).parse sources).andThen register).session.errors
  (sources.zipIdx.filter fun (_, index) => errors.all fun e => e.index ≠ index).map Prod.fst

def declared? (source : Source) : Option Forest := (Fragment.parse source.text).toOption

/-- What a source contributes without errors: its record, up to its place, and what it declares. -/
def contribution? (options : RegistrationOptions) (source : Source) : Option (Record × Forest) :=
  (declared? source).bind fun forest =>
    (Record.extract options source 0 forest).toOption.map fun r => (r, forest)

def contributionAt? (options : RegistrationOptions) (p : Source × Nat) :
    Option (Record × Forest) :=
  (declared? p.1).bind fun forest =>
    (Record.extract options p.1 p.2 forest).toOption.map fun r => (r, forest)

def contributions (s : Session) : List (Record × Forest) :=
  s.parsed.filterMap fun (index, source, forest) =>
    (Record.extract s.options.registration source index forest).toOption.map fun r => (r, forest)

/-- The records that are held, up to their places, with what their sources declare. -/
def holdings (options : SessionOptions) (sources : List Source) : List (Record × Forest) :=
  (registered options sources).1.records.filterMap fun r =>
    ((afterParsing options sources).forest? r).map fun forest => (r.unplaced, forest)

def spared (options : SessionOptions) (sources : List Source) (index : Nat) : Bool :=
  (findings options sources).all fun e => e.index ≠ index

variable {options : SessionOptions} {sources : List Source}

/-- Parsing never fails, so the next stage starts from what it leaves behind. -/
theorem parse_andThen {α : Type} (options : SessionOptions) (sources : List Source)
    (next : Session → Step α) :
    (((new options).parse sources).andThen next).result =
        (next (afterParsing options sources)).result ∧
      (((new options).parse sources).andThen next).session =
        (next (afterParsing options sources)).session :=
  andThen_of_ok (a := ()) next rfl

/-- Registering leaves the registry and all errors behind, also when the session fails. -/
theorem session_register {s : Session} (hs : s.stage = .parsing) :
    s.register.session.registry = (registerAll .empty s.extracted).1 ∧
      s.register.session.errors = sortErrors (s.errors ++ (registerAll .empty s.extracted).2) := by
  rw [(register_eq_settle hs).2]
  exact session_settle

theorem recordsOf_extracted (s : Session) :
    recordsOf s.extracted = s.contributions.map Prod.fst := by
  rw [recordsOf, extracted, contributions, List.filterMap_map, List.map_filterMap]
  congr 1
  funext p
  obtain ⟨index, source, forest⟩ := p
  simp only [Function.comp_apply, Option.map_map]
  exact Option.map_id'.symm

theorem forests_afterParsing (options : SessionOptions) (sources : List Source) :
    (afterParsing options sources).forests = sources.map declared? := by
  have hforests : (afterParsing options sources).forests =
      (sources.mapIdx parseSource).map Except.toOption := rfl
  rw [hforests]
  apply List.ext_getElem (by simp)
  intro i hi hi'
  rw [List.getElem_map, List.getElem_mapIdx, List.getElem_map, parseSource, declared?]
  cases Fragment.parse _ <;> rfl

theorem parsed_afterParsing (options : SessionOptions) (sources : List Source) :
    (afterParsing options sources).parsed = sources.zipIdx.filterMap fun (source, index) =>
      (declared? source).map fun forest => (index, source, forest) := by
  have hsources : (afterParsing options sources).sources = sources := rfl
  have hzip : sources.zip (sources.map declared?) = sources.map fun s => (s, declared? s) :=
    List.map_prod_left_eq_zip.symm
  rw [parsed, hsources, forests_afterParsing, hzip, List.zipIdx_map, List.filterMap_map]
  rfl

/-- Registering the sources of a session is inserting their records. -/
theorem registered_eq (options : SessionOptions) (sources : List Source) :
    (registered options sources).1 =
        (Registry.empty.insertAll (recordsOf (afterParsing options sources).extracted)).1 ∧
      (registered options sources).2 ~
        (afterParsing options sources).extracted.filterMap error? ++
          (Registry.empty.insertAll (recordsOf (afterParsing options sources).extracted)).2 :=
  registerAll_eq _ _

theorem ascending_registered (options : SessionOptions) (sources : List Source) :
    Registry.Ascending (registered options sources).1.records := by
  rw [(registered_eq options sources).1]
  exact Registry.ascending_insertAll _ List.Pairwise.nil

/-- Where everything becomes one of two kinds of things and keeps its place, no place is lost. -/
theorem places_perm {α β γ : Type} {f : α → Option β} {g : α → Option γ} {place : α → Nat}
    {first : β → Nat} {second : γ → Nat} {xs : List α}
    (h : ∀ x, (∃ b, f x = some b ∧ first b = place x ∧ g x = none) ∨
      ∃ c, g x = some c ∧ second c = place x ∧ f x = none) :
    (xs.filterMap f).map first ++ (xs.filterMap g).map second ~ xs.map place := by
  induction xs with
  | nil => exact List.Perm.refl _
  | cons x xs ih =>
    rcases h x with ⟨b, hf, hb, hg⟩ | ⟨c, hg, hc, hf⟩
    · rw [List.filterMap_cons_some hf, List.filterMap_cons_none hg, List.map_cons, hb]
      exact ih.cons _
    · rw [List.filterMap_cons_none hf, List.filterMap_cons_some hg, List.map_cons, hc]
      exact List.perm_middle.trans (ih.cons _)

theorem zipIdx_places (sources : List Source) :
    sources.zipIdx.map Prod.snd = List.range sources.length := by
  rw [List.zipIdx_map_snd, List.range_eq_range']

theorem errors_afterParsing (options : SessionOptions) (sources : List Source) :
    (afterParsing options sources).errors =
      sources.zipIdx.filterMap fun (source, index) => error? (parseSource index source) := by
  have hresults : (afterParsing options sources).errors =
      (sources.mapIdx parseSource).filterMap error? := rfl
  rw [hresults, List.mapIdx_eq_zipIdx_map, List.filterMap_map]
  rfl

/-- A source has an error of parsing, or it is parsed. -/
theorem places_parsed (options : SessionOptions) (sources : List Source) :
    (afterParsing options sources).errors.map FragmentError.index ++
      (afterParsing options sources).parsed.map Prod.fst ~ List.range sources.length := by
  rw [errors_afterParsing, parsed_afterParsing, ← zipIdx_places]
  apply places_perm
  rintro ⟨source, index⟩
  cases hp : Fragment.parse source.text with
  | error e =>
    have hresult : parseSource index source = .error ⟨source.name, index, .parse e⟩ :=
      congrArg (Except.mapError _) hp
    exact Or.inl ⟨_, congrArg error? hresult, rfl, congrArg (Option.map _ ∘ Except.toOption) hp⟩
  | ok forest =>
    have hresult : parseSource index source = .ok forest := congrArg (Except.mapError _) hp
    exact Or.inr ⟨_, congrArg (Option.map _ ∘ Except.toOption) hp, rfl, congrArg error? hresult⟩

/-- A source that is parsed has an error of registration, or it has a record. -/
theorem places_extracted (s : Session) :
    (s.extracted.filterMap error?).map FragmentError.index ++
      (recordsOf s.extracted).map Record.index ~ s.parsed.map Prod.fst := by
  rw [recordsOf, extracted, List.filterMap_map, List.filterMap_map]
  apply places_perm
  rintro ⟨index, source, forest⟩
  cases hx : Record.extract s.options.registration source index forest with
  | error e =>
    exact Or.inl ⟨e, congrArg error? hx, Record.index_of_extract_error hx,
      congrArg Except.toOption hx⟩
  | ok x =>
    exact Or.inr ⟨x, congrArg Except.toOption hx, (Record.extract_cases hx).1, congrArg error? hx⟩

/-- A record loses its key, which is an error, or it is held. -/
theorem places_inserted {xs : List Record} (hd : (xs.map Record.index).Nodup) :
    (Registry.empty.insertAll xs).2.map FragmentError.index ++
      (Registry.empty.insertAll xs).1.records.map Record.index ~ xs.map Record.index := by
  obtain ⟨losers, he, hp⟩ := Registry.losers_held_perm hd
  have hlost : (Registry.empty.insertAll xs).2.map FragmentError.index =
      losers.map Record.index := by
    have h := congrArg (List.map fun b => b.2.1) he
    rwa [List.map_map, List.map_map] at h
  rw [hlost, ← List.map_append]
  exact hp.map _

/-- All errors are those of parsing, of extraction and of insertion. -/
theorem findings_perm (options : SessionOptions) (sources : List Source) :
    findings options sources ~ (afterParsing options sources).errors ++
      ((afterParsing options sources).extracted.filterMap error? ++
        (Registry.empty.insertAll (recordsOf (afterParsing options sources).extracted)).2) :=
  (List.mergeSort_perm _ _).trans ((registered_eq options sources).2.append_left _)

/-- Each place among the sources is that of one error or of one record that is held. -/
theorem places_settled (options : SessionOptions) (sources : List Source) :
    (findings options sources).map FragmentError.index ++
      (registered options sources).1.records.map Record.index ~ List.range sources.length := by
  have hparsed := places_parsed options sources
  have hextracted := places_extracted (afterParsing options sources)
  have hinserted := places_inserted (afterParsing options sources).index_nodup
  rw [← (registered_eq options sources).1] at hinserted
  have hfindings := (findings_perm options sources).map FragmentError.index
  rw [List.map_append, List.map_append] at hfindings
  refine (hfindings.append_right _).trans ?_
  rw [List.append_assoc, List.append_assoc]
  exact (((hinserted.append_left _).trans hextracted).append_left _).trans hparsed

theorem length_findings (options : SessionOptions) (sources : List Source) :
    (findings options sources).length + (registered options sources).1.size = sources.length := by
  simpa [Registry.size] using (places_settled options sources).length_eq

/-- The accepted sources are those at whose places there is no error. -/
theorem accepted_eq (options : SessionOptions) (sources : List Source) :
    accepted options sources =
      (sources.zipIdx.filter fun p => spared options sources p.2).map Prod.fst := by
  have herrors : (((new options).parse sources).andThen register).session.errors =
      findings options sources := by
    rw [(parse_andThen options sources register).2, (session_register rfl).2]
    rfl
  rw [accepted, herrors]
  rfl

theorem accepted_of_no_findings (h : findings options sources = []) :
    accepted options sources = sources := by
  have hall : ∀ p ∈ sources.zipIdx, spared options sources p.2 = true := by
    intro p _
    rw [spared, h, List.all_nil]
  rw [accepted_eq, List.filter_eq_self.mpr hall, List.zipIdx_map_fst]

theorem not_spared_of_error {e : FragmentError} (he : e ∈ findings options sources) :
    ¬ spared options sources e.index := by
  intro hspared
  exact of_decide_eq_true (List.all_eq_true.mp hspared e he) rfl

theorem spared_of_held {x : Record} (hx : x ∈ (registered options sources).1.records) :
    spared options sources x.index := by
  apply List.all_eq_true.mpr
  intro e he
  -- no place is that of an error and of a record
  have hplaces := (places_settled options sources).nodup_iff.mpr List.nodup_range
  have hdisjoint := List.disjoint_of_nodup_append hplaces (List.mem_map_of_mem he)
  exact decide_eq_true fun heq => hdisjoint (heq ▸ List.mem_map_of_mem hx)

/-- The records that are held are those at whose places no error stands. -/
theorem held_perm (options : SessionOptions) (sources : List Source) :
    (registered options sources).1.records ~
      (recordsOf (afterParsing options sources).extracted).filter
        fun r => spared options sources r.index := by
  obtain ⟨losers, he, hp⟩ := Registry.losers_held_perm (afterParsing options sources).index_nodup
  rw [← (registered_eq options sources).1] at hp
  have hlost : losers.filter (fun r => spared options sources r.index) = [] := by
    apply List.filter_eq_nil_iff.mpr
    intro x hx
    have hblamed : Registry.lost x ∈ losers.map Registry.lost := List.mem_map_of_mem hx
    rw [← he] at hblamed
    obtain ⟨e, hm, hl⟩ := List.mem_map.mp hblamed
    have hfinding : e ∈ findings options sources := (findings_perm options sources).mem_iff.mpr
      (List.mem_append_right _ (List.mem_append_right _ hm))
    have hindex : e.index = x.index := congrArg (fun b => b.2.1) hl
    exact hindex ▸ not_spared_of_error hfinding
  have hfilter := hp.filter fun r => spared options sources r.index
  rwa [List.filter_append, hlost, List.nil_append,
    List.filter_eq_self.mpr fun x hx => spared_of_held hx] at hfilter

/-- Each accepted source is held as one record. -/
theorem length_accepted (options : SessionOptions) (sources : List Source) :
    (accepted options sources).length = (registered options sources).1.size := by
  have hplaces := (places_settled options sources).filter (spared options sources)
  have herrors : ((findings options sources).map FragmentError.index).filter
      (spared options sources) = [] := by
    apply List.filter_eq_nil_iff.mpr
    intro index hm
    obtain ⟨e, he, rfl⟩ := List.mem_map.mp hm
    exact not_spared_of_error he
  have hheld : ((registered options sources).1.records.map Record.index).filter
      (spared options sources) = (registered options sources).1.records.map Record.index := by
    apply List.filter_eq_self.mpr
    intro index hm
    obtain ⟨x, hx, rfl⟩ := List.mem_map.mp hm
    exact spared_of_held hx
  rw [List.filter_append, herrors, hheld, List.nil_append, ← zipIdx_places, List.filter_map]
    at hplaces
  have hlength := hplaces.length_eq
  rw [List.length_map, List.length_map] at hlength
  rw [accepted_eq, List.length_map]
  exact hlength.symm

theorem contribution_at {options : RegistrationOptions} {p : Source × Nat} {c : Record × Forest}
    (h : contributionAt? options p = some c) :
    c.1.index = p.2 ∧ declared? p.1 = some c.2 := by
  obtain ⟨forest, hd, hx⟩ := Option.bind_eq_some_iff.mp h
  obtain ⟨r, hr, rfl⟩ := Option.map_eq_some_iff.mp hx
  exact ⟨(Record.extract_cases (eq_ok_of_toOption hr)).1, hd⟩

/-- Up to its place, what a source contributes is the same at every place. -/
theorem contribution_unplaced (options : RegistrationOptions) (p : Source × Nat) :
    (contributionAt? options p).map (Prod.map unplaced id) = contribution? options p.1 := by
  rw [contributionAt?, contribution?]
  cases declared? p.1 with
  | none => rfl
  | some forest =>
    simp only [Option.bind_some, Option.map_map, ← Record.extract_unplaced options p.1 p.2 forest]
    rfl

/-- What the sources contribute at their places, one by one. -/
theorem contributions_afterParsing (options : SessionOptions) (sources : List Source) :
    (afterParsing options sources).contributions =
      sources.zipIdx.filterMap (contributionAt? options.registration) := by
  have hoptions : (afterParsing options sources).options = options := rfl
  rw [contributions, parsed_afterParsing, hoptions, List.filterMap_filterMap]
  congr 1
  funext p
  obtain ⟨source, index⟩ := p
  dsimp only [contributionAt?]
  cases declared? source <;> rfl

/-- Up to the places of the records, the contributions of some sources are theirs one by one. -/
theorem contributions_unplaced (options : RegistrationOptions) (chosen : Nat → Bool)
    (places : List (Source × Nat)) :
    ((places.filterMap (contributionAt? options)).filter fun c => chosen c.1.index).map
        (Prod.map unplaced id) =
      ((places.filter fun p => chosen p.2).map Prod.fst).filterMap (contribution? options) := by
  induction places with
  | nil => rfl
  | cons p places ih =>
    have hsame := contribution_unplaced options p
    cases hc : contributionAt? options p with
    | none =>
      rw [hc] at hsame
      rw [List.filterMap_cons_none hc, ih, List.filter_cons]
      split_ifs
      · rw [List.map_cons, List.filterMap_cons_none hsame.symm]
      · rfl
    | some c =>
      rw [hc] at hsame
      rw [List.filterMap_cons_some hc, List.filter_cons, List.filter_cons, (contribution_at hc).1]
      split_ifs
      · rw [List.map_cons, List.map_cons, List.filterMap_cons_some hsame.symm, ih]
      · exact ih

/-- The keys of the records that there are do not depend on the places of the sources. -/
theorem keys_extracted (options : SessionOptions) (sources : List Source) :
    (recordsOf (afterParsing options sources).extracted).map keyOf =
      (sources.filterMap (contribution? options.registration)).map fun c => keyOf c.1 := by
  have hall := contributions_unplaced options.registration (fun _ => true) sources.zipIdx
  rw [List.filter_true, List.filter_true, List.zipIdx_map_fst,
    ← contributions_afterParsing] at hall
  rw [recordsOf_extracted, ← hall, List.map_map, List.map_map]
  rfl

/-- The session finds what a record's source declares by the place of the record. -/
theorem forest_of_contribution {c : Record × Forest}
    (hc : c ∈ (afterParsing options sources).contributions) :
    (afterParsing options sources).forest? c.1 = some c.2 := by
  rw [contributions_afterParsing] at hc
  obtain ⟨⟨source, index⟩, hz, hx⟩ := List.mem_filterMap.mp hc
  -- the record keeps the place of its source, where the session looks up what it declares
  obtain ⟨hindex, hdeclared⟩ := contribution_at hx
  have hplace : sources[index]? = some source := List.mem_zipIdx_iff_getElem?.mp hz
  rw [forest?, forests_afterParsing, hindex, List.getElem?_map, hplace]
  exact congrArg Option.join (congrArg some hdeclared)

/-- What is held is what the accepted sources contribute. -/
theorem holdings_perm (options : SessionOptions) (sources : List Source) :
    holdings options sources ~
      (accepted options sources).filterMap (contribution? options.registration) := by
  have hrecords : (registered options sources).1.records ~
      ((afterParsing options sources).contributions.filter
        fun c => spared options sources c.1.index).map Prod.fst := by
    have h := held_perm options sources
    rw [recordsOf_extracted, List.filter_map] at h
    exact h
  refine (hrecords.filterMap _).trans (List.Perm.of_eq ?_)
  rw [accepted_eq, ← contributions_unplaced, ← contributions_afterParsing, List.filterMap_map,
    ← List.filterMap_eq_map]
  apply List.filterMap_congr
  intro c hc
  rw [Function.comp_apply, forest_of_contribution (List.mem_of_mem_filter hc)]
  rfl

/-- Behind each record that is held there is a fragment. -/
theorem forest_of_held {r : Record} (hr : r ∈ (registered options sources).1.records) :
    ∃ forest, (afterParsing options sources).forest? r = some forest ∧
      (r.unplaced, forest) ∈ holdings options sources := by
  have hm := List.mem_of_mem_filter ((held_perm options sources).mem_iff.mp hr)
  rw [recordsOf_extracted] at hm
  obtain ⟨c, hc, rfl⟩ := List.mem_map.mp hm
  have hforest := forest_of_contribution hc
  exact ⟨c.2, hforest, List.mem_filterMap.mpr ⟨c.1, hr, by rw [hforest]; rfl⟩⟩

theorem holdings_fst (options : SessionOptions) (sources : List Source) :
    (holdings options sources).map Prod.fst =
      (registered options sources).1.records.map unplaced := by
  rw [holdings, List.map_filterMap, ← List.filterMap_eq_map]
  apply List.filterMap_congr
  intro r hr
  obtain ⟨forest, hforest, -⟩ := forest_of_held hr
  rw [hforest]
  rfl

theorem holdings_ascending (options : SessionOptions) (sources : List Source) :
    (holdings options sources).Pairwise fun a b => keyOf a.1 < keyOf b.1 := by
  have hrecords : ((registered options sources).1.records.map unplaced).Pairwise
      fun a b => keyOf a < keyOf b := List.pairwise_map.mpr (ascending_registered options sources)
  rwa [← holdings_fst, List.pairwise_map] at hrecords

theorem holdings_keys_nodup (options : SessionOptions) (sources : List Source) :
    ((holdings options sources).map fun c => keyOf c.1).Nodup :=
  List.pairwise_map.mpr ((holdings_ascending options sources).imp ne_of_lt)

/-- What is held is listed by key, so it matters only which things are held. -/
theorem holdings_eq_of_perm {options' : SessionOptions} {sources' : List Source}
    (h : holdings options sources ~ holdings options' sources') :
    holdings options sources = holdings options' sources' := by
  apply h.eq_of_pairwise _ (holdings_ascending options sources)
    (holdings_ascending options' sources')
  intro a b _ _ hab hba
  exact absurd (hab.trans hba) (lt_irrefl _)

end Overlay.Session
