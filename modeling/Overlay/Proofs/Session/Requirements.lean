import Overlay.Proofs.Registry.Resolve
import Overlay.Proofs.Session
import Overlay.Proofs.Tree.Reading

namespace Overlay
open Registry (Names)

def Outcome.Merged (outcome : Outcome) (index : Nat) : Prop :=
  ∃ f ∈ outcome.report.fragments, f.index = index ∧ f.status = .merged

namespace Session

/-- The source at a place registers a module, whose list of needed modules has the given items. -/
def Lists (options : SessionOptions) (sources : List Source) (index : Nat)
    (items : List Scalar) : Prop :=
  ∃ source forest registration module p, sources[index]? = some source ∧
    Fragment.parse source.text = .ok forest ∧
    Forest.find? forest options.registration.className = some registration ∧
    module ∈ registration.children ∧
    module.property? RecordField.requiredAddons.name = some p ∧ p.value = .array items

/-- A record that meets what is asked for suits the dependency. -/
theorem suits_of_meets {t : Record} {d : Dependency} (h : ∀ requirement,
    d.requirement = some requirement → Registry.meets t requirement = true) : t.Suits d :=
  Registry.suits_iff.mpr h

/-- In front of a merged module there is a module for each text of its list. If the text is the
first one on that module, the module also has the version asked for. -/
theorem listed_modules_met (options : SessionOptions) (sources : List Source) (outcome : Outcome)
    (index : Nat) (items : List Scalar) (hr : (run options sources).result = .ok outcome)
    (hm : outcome.Merged index) (hl : Lists options sources index items) :
    (∃ own ∈ outcome.order, own.index = index) ∧
      ∀ front own rest, outcome.order = front ++ own :: rest → own.index = index →
        ∀ before entry after, items = before ++ .text entry :: after →
          ∃ d t, Dependency.read entry = .ok d ∧ Names front d t ∧
            ((∀ other d', .text other ∈ before → Dependency.read other = .ok d' →
              keyOf d' ≠ keyOf d) → t.Suits d) := by
  obtain ⟨source, forest, registration, module, p, hsource, hparse, hclass, hmodule, hp, hv⟩ := hl
  obtain ⟨s, hs⟩ := finished_of_run hr
  -- the fragment has no error, so its record is held, and it is the one record of its place
  have hno : ∀ e ∈ s.errors, e.index ≠ index := by
    rw [Outcome.Merged, hs.report_eq] at hm
    exact ((merged_iff_no_error s index).mp hm).2
  obtain ⟨x, hx, hextract⟩ := hs.held hsource hparse hno
  obtain ⟨rfl, -, hcases⟩ := Record.extract_cases hextract
  have ha := hs.registry_ascending
  have hresolved := hs.order_eq ▸ hs.resolved
  have hperm := Registry.resolve_perm ha hresolved
  refine ⟨⟨x, hperm.mem_iff.mpr hx, rfl⟩, ?_⟩
  intro front own rest ho hi before entry after hitems
  rw [ho] at hresolved hperm
  have hown : own ∈ s.registry.records := hperm.mem_iff.mp (by simp)
  obtain rfl : own = x := hs.eq_of_index hown hx hi
  rcases hcases with ⟨hnone, -⟩ |
    ⟨registration', module', entries, hclass', hone, -, -, htexts, hread⟩
  · simp [hclass] at hnone
  -- the record was read off the module and the list that are spoken of
  obtain rfl : registration = registration' := Option.some.inj (hclass.symm.trans hclass')
  obtain rfl : module = module' := by simpa [hone] using hmodule
  rw [Record.textsProperty_eq_ok hp hv htexts] at hitems
  obtain ⟨before', more, rfl, rfl, hmore⟩ := List.map_eq_append_iff.mp hitems
  obtain ⟨entry', after', rfl, he, rfl⟩ := List.map_eq_cons_iff.mp hmore
  obtain rfl : entry' = entry := by simpa using he
  obtain ⟨d, hd, ⟨d', hd', hk⟩, hfirst⟩ := (Record.readDependencies_eq_ok hread).2 _ _ _ rfl
  by_cases hnew : ∀ other ∈ before', ∀ d', Dependency.read other = .ok d' → keyOf d' ≠ keyOf d
  · obtain ⟨t, hn, hmet⟩ := Registry.dependency_met ha hresolved (hfirst (by simp) hnew)
    exact ⟨d, t, hd, hn, fun _ => suits_of_meets hmet⟩
  · -- an earlier text is on the same module, so only that module is certain
    obtain ⟨t, hn, -⟩ := Registry.dependency_met ha hresolved hd'
    refine ⟨d, t, hd, ⟨hn.1, hn.2.1, hn.2.2.trans hk⟩, fun hnone => absurd ?_ hnew⟩
    intro other ho d'' hread
    exact hnone other d'' (List.mem_map_of_mem ho) hread

end Session

theorem Declaration.eq_body_of_bare {d : Declaration} {name : String} {base : Option String}
    {ps : List Property} {ds : List Declaration} {p : Text.Position}
    (h : d.bare = .body name base ps ds p) : ∃ properties children position,
      d = .body name base properties children position ∧ properties.map Property.bare = ps ∧
        children.map bare = ds := by
  cases d with
  | forward => simp [bare] at h
  | body name' base' properties children position =>
    rw [bare, bareAll_eq] at h
    obtain ⟨rfl, rfl, rfl, rfl, -⟩ := Declaration.body.inj h
    exact ⟨properties, children, position, rfl, rfl, rfl⟩

/-- A tree that registers a module with one property when it is written as a fragment. -/
def registering (name : String) (m : Member) : Tree :=
  let module := Class.mk name none [m] []
  ⟨⟨"", none, [], [⟨defaultRegistrationClass, none, [], [module]⟩]⟩⟩

def registrationForest (name : String) (p : Property) (p₁ p₂ : Text.Position) : Forest :=
  [.body defaultRegistrationClass none [] [.body name none [p] [] p₂] p₁]

/-- Written as a text and parsed again, a registration has its name and its property. -/
theorem parse_registering {name : String} {m : Member} (hn : IsName name) (hm : m.Proper) :
    ∃ p p₁ p₂, Fragment.parse (registering name m).text = .ok (registrationForest name p p₁ p₂) ∧
      p.name = m.name ∧ p.value = m.value := by
  have hmodule : (Class.mk name none [m] []).Proper :=
    .intro hn (by simp) (by simpa using hm) (List.nodup_singleton _) (by simp) List.nodup_nil
  have hclass : (Class.mk defaultRegistrationClass none [] [⟨name, none, [m], []⟩]).Proper :=
    .intro (by decide) (by simp) (by simp) List.nodup_nil (by simpa using hmodule)
      (List.nodup_singleton _)
  have ht : (registering name m).Proper :=
    ⟨⟨by simp [registering], List.nodup_nil, by simpa [registering] using hclass,
      List.nodup_singleton _⟩, rfl, rfl, rfl⟩
  obtain ⟨forest, hparse, hforest⟩ := Fragment.parse_text ht
  obtain ⟨d, rfl, hd⟩ := List.map_eq_singleton_iff.mp hforest
  obtain ⟨ps, ds, p₁, rfl, hps, hds⟩ := Declaration.eq_body_of_bare hd
  obtain ⟨e, rfl, he⟩ := List.map_eq_singleton_iff.mp hds
  obtain ⟨qs, es, p₂, rfl, hqs, hes⟩ := Declaration.eq_body_of_bare he
  obtain ⟨p, rfl, hp⟩ := List.map_eq_singleton_iff.mp hqs
  obtain rfl := List.map_eq_nil_iff.mp hps
  obtain rfl := List.map_eq_nil_iff.mp hes
  exact ⟨p, p₁, p₂, hparse, congrArg Property.name hp, congrArg Property.value hp⟩

theorem find_registration (name : String) (p : Property) (p₁ p₂ : Text.Position) :
    Forest.find? (registrationForest name p p₁ p₂) defaultRegistrationClass =
      some (.body defaultRegistrationClass none [] [.body name none [p] [] p₂] p₁) := by
  simp [Forest.find?, Roster.find?, registrationForest, keyOf, Named.name, Declaration.name]

namespace Session

theorem extract_registration {name : String} {p : Property} {p₁ p₂ : Text.Position}
    {source : Source} {index : Nat} {version : Option DeclaredVersion} {entries : List String}
    {ds : List Dependency} (hs : source.version = none)
    (hr : keyOf p ≠ nameKey "requiredVersion") (hu : keyOf p ≠ nameKey "units")
    (hw : keyOf p ≠ nameKey "weapons")
    (hv : Record.versionProperty (.body name none [p] [] p₂) .version = .ok version)
    (he : Record.textsProperty (.body name none [p] [] p₂) .requiredAddons = .ok entries)
    (hd : Record.readDependencies [] entries = .ok ds) :
    Record.extract .default source index (registrationForest name p p₁ p₂) = .ok
      ⟨name, true, version, none, ds, [], [], source.name, index, Digest.ofText source.text⟩ := by
  have habsent (key : String) (hk : keyOf p ≠ nameKey key) :
      (Declaration.body name none [p] [] p₂).property? key = none := by
    simp [Declaration.property?, Declaration.properties, Roster.find?, hk]
  refine Record.extract_module hs (find_registration name p p₁ p₂) rfl ?_ hv he hd ?_ ?_
  · simp [Record.versionProperty, RecordField.name, habsent _ hr]
  · simp [Record.textsProperty, RecordField.name, habsent _ hu]
  · simp [Record.textsProperty, RecordField.name, habsent _ hw]

/-- A run over two sources whose records are in order as they come. -/
theorem run_pair {options : SessionOptions} {a b : Source} {f g : Forest} {x y : Record}
    {tree : Tree} (hf : Fragment.parse a.text = .ok f) (hg : Fragment.parse b.text = .ok g)
    (hx : Record.extract options.registration a 0 f = .ok x)
    (hy : Record.extract options.registration b 1 g = .ok y)
    (hi : registerAll .empty [.ok x, .ok y] = (⟨[x, y]⟩, []))
    (hr : Registry.resolve ⟨[x, y]⟩ options.hostVersion = .ok [x, y])
    (hm : Tree.merge [(x.source, f), (y.source, g)] = .ok tree) :
    ∃ outcome, (run options [a, b]).result = .ok outcome ∧ outcome.order = [x, y] ∧
      outcome.Merged 1 := by
  -- the session in front of merging
  obtain ⟨s, hs⟩ : ∃ s : Session,
      s = ⟨options, .merging, [a, b], [some f, some g], [], ⟨[x, y]⟩, [x, y]⟩ := ⟨_, rfl⟩
  have hparsed : [a, b].mapIdx parseSource = [.ok f, .ok g] := by
    simp [parseSource, hf, hg, Except.mapError]
  have hextracted : s.extracted = [.ok x, .ok y] := by
    rw [hs]
    simp [extracted, parsed, hx, hy]
  have hfragments : s.fragments = [(x.source, f), (y.source, g)] := by
    have hxi := (Record.extract_cases hx).1
    have hyi := (Record.extract_cases hy).1
    rw [hs]
    simp [fragments, forest?, hxi, hyi]
  have hfinished : Finished options [a, b] ⟨tree, [x, y], s.report⟩ s := by
    constructor
    · rw [hs]
    · rw [hs]
    · rw [hs, hparsed]
      rfl
    · rw [hextracted, hi, hs]
    · rw [hextracted, hi, hparsed, hs]
      exact List.mergeSort_nil.symm
    · rw [hs]
      exact Or.inl rfl
    · rw [hs]
      exact hr
    · rw [hfragments]
      exact hm
    · rw [hs]
    · rfl
  refine ⟨_, run_of_finished hfinished, rfl, ?_⟩
  have hnone : ∀ e ∈ s.errors, e.index ≠ 1 := by simp [hs]
  exact (merged_iff_no_error s 1).mpr ⟨by simp [hs], hnone⟩

def core : Source :=
  ⟨"core.cpp", (registering "Core" ⟨"version", .scalar (.text "1.0")⟩).text, none⟩

def coreVersion : DeclaredVersion := ⟨"1.0", ⟨1, 0, 0, [], []⟩⟩

def extItems : List Scalar := [.text "Core >= 1", .text "core >= 9"]

def ext : Source :=
  ⟨"ext.cpp", (registering "Ext" ⟨"requiredAddons", .array extItems⟩).text, none⟩

def atLeast (major : Nat) : Requirement := ⟨[⟨.greaterEq, major, none, none, []⟩]⟩

def coreRecord : Record :=
  ⟨"Core", true, some coreVersion, none, [], [], [], "core.cpp", 0, Digest.ofText core.text⟩

def extRecord : Record :=
  ⟨"Ext", true, none, none, [⟨"Core", some (atLeast 1)⟩], [], [], "ext.cpp", 1,
    Digest.ofText ext.text⟩

theorem read_extItems : Dependency.read "Core >= 1" = .ok ⟨"Core", some (atLeast 1)⟩ ∧
    Dependency.read "core >= 9" = .ok ⟨"core", some (atLeast 9)⟩ := ⟨rfl, rfl⟩

theorem keys_of_fields : nameKey "version" = "version" ∧
    nameKey "requiredVersion" = "requiredversion" ∧ nameKey "requiredAddons" = "requiredaddons" ∧
    nameKey "units" = "units" ∧ nameKey "weapons" = "weapons" :=
  ⟨nameKey_eq (by decide), nameKey_eq (by decide), nameKey_eq (by decide), nameKey_eq (by decide),
    nameKey_eq (by decide)⟩

theorem key_core : nameKey "Core" = "core" ∧ nameKey "core" = "core" ∧ nameKey "Ext" = "ext" :=
  ⟨nameKey_eq (by decide), nameKey_eq (by decide), nameKey_eq (by decide)⟩

theorem extract_core {p : Property} (p₁ p₂ : Text.Position) (hn : p.name = "version")
    (hp : p.value = .scalar (.text "1.0")) :
    Record.extract .default core 0 (registrationForest "Core" p p₁ p₂) = .ok coreRecord := by
  obtain ⟨hv, hr, ha, hu, hw⟩ := keys_of_fields
  have hkey : keyOf p = "version" := (congrArg nameKey hn).trans hv
  have hnone : Record.readDependencies [] [] = .ok [] := rfl
  refine extract_registration rfl ?_ ?_ ?_ ?_ ?_ hnone
  · rw [hkey, hr]; decide
  · rw [hkey, hu]; decide
  · rw [hkey, hw]; decide
  · simp [Record.versionProperty, Declaration.property?, Declaration.properties, Roster.find?,
      RecordField.name, hkey, hv, hp, Record.scalarText, Record.readVersion]
    rfl
  · simp [Record.textsProperty, Declaration.property?, Declaration.properties, Roster.find?,
      RecordField.name, hkey, ha]

theorem extract_ext {p : Property} (p₁ p₂ : Text.Position) (hn : p.name = "requiredAddons")
    (hp : p.value = .array extItems) :
    Record.extract .default ext 1 (registrationForest "Ext" p p₁ p₂) = .ok extRecord := by
  obtain ⟨hv, hr, ha, hu, hw⟩ := keys_of_fields
  obtain ⟨hfirst, hsecond⟩ := read_extItems
  obtain ⟨hupper, hlower, -⟩ := key_core
  have hkey : keyOf p = "requiredaddons" := (congrArg nameKey hn).trans ha
  have hnames : "Core".isEmpty = false ∧ "core".isEmpty = false := by decide
  -- the second text is on a module that is known by then
  have hdependencies : Record.readDependencies [] ["Core >= 1", "core >= 9"] =
      .ok [⟨"Core", some (atLeast 1)⟩] := by
    simp [Record.readDependencies, Record.readDependency, hfirst, hsecond, hnames, Except.mapError,
      bind, Except.bind, pure, Except.pure, Roster.keys, keyOf, Named.name, hupper, hlower]
  refine extract_registration rfl ?_ ?_ ?_ ?_ ?_ hdependencies
  · rw [hkey, hr]; decide
  · rw [hkey, hu]; decide
  · rw [hkey, hw]; decide
  · simp [Record.versionProperty, Declaration.property?, Declaration.properties, Roster.find?,
      RecordField.name, hkey, hv]
  · simp [Record.textsProperty, Declaration.property?, Declaration.properties, Roster.find?,
      RecordField.name, hkey, ha, hp, extItems]
    rfl

def plain : SessionOptions := ⟨.default, none, .reject, true⟩

/-- Two records with what the resolver looks at as in the two modules. -/
theorem resolve_core_ext {x y : Record} (hx : keyOf x = "core" ∧ x.registered = true ∧
    x.dependencies = [] ∧ x.version = some coreVersion)
    (hy : keyOf y = "ext" ∧ y.dependencies = [⟨"Core", some (atLeast 1)⟩]) :
    registerAll .empty [.ok x, .ok y] = (⟨[x, y]⟩, []) ∧
      Registry.resolve ⟨[x, y]⟩ none = .ok [x, y] := by
  have hlt : ¬ "ext" < "core" := by rw [String.lt_iff_toList_lt]; decide
  have hregistered : registerAll .empty [.ok x, .ok y] = (⟨[x, y]⟩, []) := by
    simp [registerAll, Registry.insert, Registry.place, Registry.empty, hx, hy, hlt]
  have hmet : Registry.meets x (atLeast 1) = true := by
    rw [Registry.meets, hx.2.2.2]
    decide
  have hdk : keyOf (⟨"Core", some (atLeast 1)⟩ : Dependency) = "core" := key_core.1
  have hfault : Registry.fault? [x, y] none = none := by
    simp [Registry.fault?, Registry.missingDependency?, Registry.unmetDependency?,
      Registry.target?, hx, hy, hdk, hmet]
  have hgraph : Registry.graph [x, y] = [[], [0]] := by
    simp [Registry.graph, Registry.targetIndex?, hx, hy, hdk, List.findIdx?_cons]
  have hsort : Order.sort [[], [0]] = .ok [0, 1] := by rfl
  refine ⟨hregistered, ?_⟩
  simp only [Registry.resolve, hfault, hgraph, hsort]
  rfl

/-- The order of the two modules, as far as versions and places go. -/
theorem run_core_ext : ∃ outcome x y, (run plain [core, ext]).result = .ok outcome ∧
    outcome.Merged 1 ∧ Lists plain [core, ext] 1 extItems ∧ outcome.order = [x, y] ∧
    y.index = 1 ∧ x.version = some coreVersion := by
  obtain ⟨p, p₁, p₂, hcore, hpn, hpv⟩ := parse_registering (show IsName "Core" by decide)
    (m := ⟨"version", .scalar (.text "1.0")⟩) (by decide)
  obtain ⟨q, q₁, q₂, hext, hqn, hqv⟩ := parse_registering (show IsName "Ext" by decide)
    (m := ⟨"requiredAddons", .array extItems⟩) (by decide)
  have hcore : Fragment.parse core.text = .ok (registrationForest "Core" p p₁ p₂) := hcore
  have hext : Fragment.parse ext.text = .ok (registrationForest "Ext" q q₁ q₂) := hext
  have hx := extract_core p₁ p₂ hpn hpv
  have hy := extract_ext q₁ q₂ hqn hqv
  obtain ⟨hregistered, hresolved⟩ := @resolve_core_ext coreRecord extRecord
    ⟨key_core.1, rfl, rfl, rfl⟩ ⟨key_core.2.2, rfl⟩
  obtain ⟨tree, hmerge⟩ : ∃ tree, Tree.merge [("core.cpp", registrationForest "Core" p p₁ p₂),
      ("ext.cpp", registrationForest "Ext" q q₁ q₂)] = .ok tree := ⟨_, rfl⟩
  obtain ⟨outcome, hr, ho, hm⟩ :=
    @run_pair plain core ext _ _ _ _ tree hcore hext hx hy hregistered hresolved hmerge
  have hlists : Lists plain [core, ext] 1 extItems := by
    have hq : (Declaration.body "Ext" none [q] [] q₂).property? "requiredAddons" = some q := by
      simp [Declaration.property?, Declaration.properties, Roster.find?, keyOf, Named.name, hqn]
    exact ⟨ext, _, _, _, q, rfl, hext, find_registration "Ext" q q₁ q₂, List.mem_singleton_self _,
      hq, hqv⟩
  exact ⟨outcome, _, _, hr, hm, hlists, ho, rfl, rfl⟩

theorem listed_modules_met_core_ext : ∃ outcome, (run plain [core, ext]).result = .ok outcome ∧
    outcome.Merged 1 ∧ Lists plain [core, ext] 1 extItems ∧
    (∃ own ∈ outcome.order, own.index = 1) ∧
      ∀ front own rest, outcome.order = front ++ own :: rest → own.index = 1 →
        ∀ before entry after, extItems = before ++ .text entry :: after →
          ∃ d t, Dependency.read entry = .ok d ∧ Names front d t ∧
            ((∀ other d', .text other ∈ before → Dependency.read other = .ok d' →
              keyOf d' ≠ keyOf d) → t.Suits d) := by
  obtain ⟨outcome, _, _, hr, hm, hl, _⟩ := run_core_ext
  exact ⟨outcome, hr, hm, hl, listed_modules_met _ _ _ _ _ hr hm hl⟩

/-- A text on a module that an earlier text is on may ask for a version that the module does not
have. -/
theorem listed_version_ignored : ¬ ∀ (options : SessionOptions) (sources : List Source)
    (outcome : Outcome) (index : Nat) (items : List Scalar),
    (run options sources).result = .ok outcome → outcome.Merged index →
    Lists options sources index items → ∃ front own rest, outcome.order = front ++ own :: rest ∧
      own.index = index ∧ ∀ entry, .text entry ∈ items →
        ∃ d t, Dependency.read entry = .ok d ∧ Names front d t ∧ t.Suits d := by
  intro hall
  obtain ⟨outcome, x, y, hr, hm, hl, ho, hy, hx⟩ := run_core_ext
  obtain ⟨front, own, rest, hsplit, hown, hmet⟩ := hall _ _ _ _ _ hr hm hl
  obtain ⟨d, t, hd, hn, hsuits⟩ := hmet "core >= 9" (by simp [extItems])
  obtain rfl : d = ⟨"core", some (atLeast 9)⟩ := by
    rw [read_extItems.2] at hd
    exact (Except.ok.inj hd).symm
  have hfront : t = x := by
    rw [hsplit] at ho
    rcases front with _ | ⟨a, _ | ⟨b, front⟩⟩
    · simpa using hn.1
    · have ha : a = x := by simpa using (List.cons.inj ho).1
      exact (List.mem_singleton.mp hn.1).trans ha
    · simp at ho
  obtain ⟨v, hv, hsat⟩ := hsuits (atLeast 9) rfl
  rw [hfront, hx] at hv
  rw [← Option.some.inj hv] at hsat
  exact absurd hsat (by decide)

end Session

end Overlay
