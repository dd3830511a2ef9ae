import Overlay.Attempt
import Overlay.Record.Extract
import Mathlib.Tactic.SplitIfs

namespace Overlay.Record
open Attempt (bind_eq_ok map_bind pure_eq_ok)

theorem itemText_eq_ok {field : RecordField} {item : Scalar} {entry : String} :
    itemText field item = .ok entry ↔ item = .text entry := by
  cases item <;> simp [itemText, Scalar.text?]

theorem mapM_itemText {field : RecordField} {items : List Scalar} {entries : List String}
    (h : items.mapM (itemText field) = .ok entries) : items = entries.map Scalar.text := by
  induction items generalizing entries with
  | nil =>
    rw [List.mapM_nil, pure_eq_ok] at h
    simp [← h]
  | cons item items ih =>
    rw [List.mapM_cons] at h
    obtain ⟨entry, he, h⟩ := bind_eq_ok.mp h
    obtain ⟨more, hm, h⟩ := bind_eq_ok.mp h
    rw [← pure_eq_ok.mp h, List.map_cons, itemText_eq_ok.mp he, ih hm]

/-- Where a list of strings is read, all its elements are strings. -/
theorem textsProperty_eq_ok {module : Declaration} {field : RecordField} {p : Property}
    {items : List Scalar} {entries : List String} (hp : module.property? field.name = some p)
    (hv : p.value = .array items) (h : textsProperty module field = .ok entries) :
    items = entries.map Scalar.text := by
  simp only [textsProperty, hp, hv] at h
  exact mapM_itemText h

theorem readDependency_eq_ok {entry : String} {d : Dependency} (h : readDependency entry = .ok d) :
    Dependency.read entry = .ok d := by
  obtain ⟨d', hd, h⟩ := bind_eq_ok.mp h
  split_ifs at h
  rw [pure_eq_ok.mp h] at hd
  cases hr : Dependency.read entry with
  | error e => simp [hr, Except.mapError] at hd
  | ok d'' => simpa [hr, Except.mapError] using hd

/-- Dependencies that are known stay, every entry's module is among the dependencies in the end,
and the first entry of a module is itself a dependency. -/
theorem readDependencies_eq_ok {known ds : List Dependency} {entries : List String}
    (h : readDependencies known entries = .ok ds) :
    (∀ d ∈ known, d ∈ ds) ∧ ∀ before entry after, entries = before ++ entry :: after →
      ∃ d, Dependency.read entry = .ok d ∧ (∃ d' ∈ ds, keyOf d' = keyOf d) ∧
        ((∀ d' ∈ known, keyOf d' ≠ keyOf d) →
          (∀ other ∈ before, ∀ d', Dependency.read other = .ok d' → keyOf d' ≠ keyOf d) →
          d ∈ ds) := by
  induction entries generalizing known with
  | nil =>
    simp only [readDependencies, Except.ok.injEq] at h
    exact ⟨fun d hd => h ▸ hd, fun before entry after he => by simp at he⟩
  | cons first entries ih =>
    rw [readDependencies] at h
    obtain ⟨d, hd, h⟩ := bind_eq_ok.mp h
    obtain ⟨hkept, hentries⟩ := ih h
    have hread := readDependency_eq_ok hd
    -- what is known stays, be the first entry new or not
    have hknown : ∀ d' ∈ known, d' ∈ ds := by
      intro d' hd'
      apply hkept
      split_ifs
      · exact hd'
      · exact List.mem_append_left _ hd'
    have hown : d ∈ ds ∨ ∃ d' ∈ known, keyOf d' = keyOf d := by
      by_cases hc : (Roster.keys known).contains (keyOf d) = true
      · exact Or.inr (List.mem_map.mp (List.contains_iff_mem.mp hc))
      · have hlast : d ∈ known ++ [d] := List.mem_append_right _ (List.mem_singleton_self d)
        exact Or.inl (hkept d (by rwa [if_neg hc]))
    refine ⟨hknown, ?_⟩
    intro before entry after he
    cases before with
    | nil =>
      obtain ⟨rfl, rfl⟩ := List.cons.inj he
      refine ⟨d, hread, ?_, ?_⟩
      · rcases hown with hin | ⟨d', hd', hk⟩
        · exact ⟨d, hin, rfl⟩
        · exact ⟨d', hknown d' hd', hk⟩
      · intro hfree _
        rcases hown with hin | ⟨d', hd', hk⟩
        · exact hin
        · exact absurd hk (hfree d' hd')
    | cons b before =>
      obtain ⟨rfl, hrest⟩ := List.cons.inj he
      obtain ⟨e, hre, hin, hfirst⟩ := hentries before entry after hrest
      refine ⟨e, hre, hin, ?_⟩
      intro hfree hbefore
      apply hfirst
      -- neither what was known nor the first entry has the key
      · intro d' hd'
        split_ifs at hd' with hc
        · exact hfree d' hd'
        · rcases List.mem_append.mp hd' with hd' | hd'
          · exact hfree d' hd'
          · rw [List.mem_singleton.mp hd']
            exact hbefore first List.mem_cons_self d hread
      · exact fun other ho => hbefore other (List.mem_cons_of_mem _ ho)

variable {options : RegistrationOptions} {source : Source} {index : Nat} {forest : Forest}

/-- A record that is extracted is the one read off the declarations. -/
theorem extract_eq_ok {x : Record} (h : extract options source index forest = .ok x) :
    extractCause options source index forest = .ok x := by
  rw [extract] at h
  cases hc : extractCause options source index forest with
  | error cause => simp [hc, Except.mapError] at h
  | ok y => simpa [hc, Except.mapError] using h

/-- An error of extraction stands at the place of its source. -/
theorem index_of_extract_error {e : FragmentError}
    (h : extract options source index forest = .error e) : e.index = index := by
  rw [extract] at h
  cases hc : extractCause options source index forest with
  | error cause =>
    simp only [hc, Except.mapError, Except.error.injEq] at h
    rw [← h]
  | ok x => simp [hc, Except.mapError] at h

/-- A record of a fragment without registration class stands under the name of the source; one of a
fragment with it has the dependencies that the one module lists. -/
theorem extract_cases {x : Record} (h : extract options source index forest = .ok x) :
    x.index = index ∧ x.source = source.name ∧
      ((Forest.find? forest options.className = none ∧ x.registered = false ∧
          x.identity = source.name ∧ x.dependencies = []) ∨
        ∃ registration module entries, Forest.find? forest options.className = some registration ∧
          registration.children = [module] ∧ x.registered = true ∧ x.identity = module.name ∧
          textsProperty module .requiredAddons = .ok entries ∧
          readDependencies [] entries = .ok x.dependencies) := by
  have h := extract_eq_ok h
  rw [extractCause] at h
  obtain ⟨given, _, h⟩ := bind_eq_ok.mp h
  cases hf : Forest.find? forest options.className with
  | none =>
    simp only [hf] at h
    split_ifs at h
    rw [← pure_eq_ok.mp h]
    exact ⟨rfl, rfl, Or.inl ⟨rfl, rfl, rfl, rfl⟩⟩
  | some registration =>
    simp only [hf] at h
    obtain ⟨module, hm, h⟩ := bind_eq_ok.mp h
    obtain ⟨required, _, h⟩ := bind_eq_ok.mp h
    -- a version that is given is taken, otherwise one is read, and the rest is the same
    have hrest : ∃ version, (do
        let entries ← textsProperty module .requiredAddons
        let dependencies ← readDependencies [] entries
        let units ← textsProperty module .units
        let weapons ← textsProperty module .weapons
        return (⟨module.name, true, version, required, dependencies, units, weapons, source.name,
          index, Digest.ofText source.text⟩ : Record)) = Except.ok x := by
      cases given with
      | some version => exact ⟨some version, h⟩
      | none =>
        obtain ⟨version, _, h⟩ := bind_eq_ok.mp h
        exact ⟨version, h⟩
    obtain ⟨version, h⟩ := hrest
    obtain ⟨entries, he, h⟩ := bind_eq_ok.mp h
    obtain ⟨dependencies, hd, h⟩ := bind_eq_ok.mp h
    obtain ⟨units, _, h⟩ := bind_eq_ok.mp h
    obtain ⟨weapons, _, h⟩ := bind_eq_ok.mp h
    have hc : registration.children = [module] := by
      rw [moduleOf] at hm
      split at hm
      · simp at hm
      · rename_i only hc
        rw [hc, Except.ok.inj hm]
      · simp at hm
    rw [← pure_eq_ok.mp h]
    exact ⟨rfl, rfl, Or.inr ⟨registration, module, entries, rfl, hc, rfl, rfl, he, hd⟩⟩

/-- A record carries the digest of the text that it was read off. -/
theorem digest_of_extract {x : Record} (h : extract options source index forest = .ok x) :
    x.digest = Digest.ofText source.text := by
  have h := extract_eq_ok h
  rw [extractCause] at h
  obtain ⟨given, _, h⟩ := bind_eq_ok.mp h
  cases hf : Forest.find? forest options.className with
  | none =>
    simp only [hf] at h
    split_ifs at h
    rw [← pure_eq_ok.mp h]
  | some registration =>
    simp only [hf] at h
    obtain ⟨module, _, h⟩ := bind_eq_ok.mp h
    obtain ⟨required, _, h⟩ := bind_eq_ok.mp h
    -- wherever the version is from, the rest of the record is read in the same way
    cases given
    all_goals
      obtain ⟨version, _, h⟩ := bind_eq_ok.mp h
      obtain ⟨entries, _, h⟩ := bind_eq_ok.mp h
      obtain ⟨dependencies, _, h⟩ := bind_eq_ok.mp h
      obtain ⟨units, _, h⟩ := bind_eq_ok.mp h
      obtain ⟨weapons, _, h⟩ := bind_eq_ok.mp h
      rw [← pure_eq_ok.mp h]

/-- A fragment without a version given along, whose one module declares what it should, is read. -/
theorem extract_module {registration module : Declaration}
    {required version : Option DeclaredVersion} {entries units weapons : List String}
    {ds : List Dependency} (hs : source.version = none)
    (hc : Forest.find? forest options.className = some registration)
    (hm : registration.children = [module])
    (hr : versionProperty module .requiredVersion = .ok required)
    (hv : versionProperty module .version = .ok version)
    (he : textsProperty module .requiredAddons = .ok entries)
    (hd : readDependencies [] entries = .ok ds) (hu : textsProperty module .units = .ok units)
    (hw : textsProperty module .weapons = .ok weapons) :
    extract options source index forest = .ok ⟨module.name, true, version, required, ds, units,
      weapons, source.name, index, Digest.ofText source.text⟩ := by
  have hmodule : moduleOf registration = .ok module := by rw [moduleOf, hm]
  have hcause : extractCause options source index forest = .ok ⟨module.name, true, version,
      required, ds, units, weapons, source.name, index, Digest.ofText source.text⟩ := by
    rw [extractCause, hs]
    refine bind_eq_ok.mpr ⟨none, rfl, ?_⟩
    simp only [hc]
    refine bind_eq_ok.mpr ⟨module, hmodule, bind_eq_ok.mpr ⟨required, hr, ?_⟩⟩
    refine bind_eq_ok.mpr ⟨version, hv, bind_eq_ok.mpr ⟨entries, he, ?_⟩⟩
    refine bind_eq_ok.mpr ⟨ds, hd, bind_eq_ok.mpr ⟨units, hu, ?_⟩⟩
    exact bind_eq_ok.mpr ⟨weapons, hw, rfl⟩
  rw [extract, hcause]
  rfl

def moved (k : Nat → Nat) (r : Record) : Record := { r with index := k r.index }

/-- The record as if its source stood in front of all others. -/
def unplaced (r : Record) : Record := { r with index := 0 }

theorem keyOf_moved (k : Nat → Nat) (r : Record) : keyOf (r.moved k) = keyOf r := rfl

/-- Apart from the place itself, nothing in a record depends on the place of its source. -/
theorem extractCause_moved (k : Nat → Nat) (options : RegistrationOptions) (source : Source)
    (index : Nat) (forest : Forest) : (extractCause options source index forest).map (moved k) =
      extractCause options source (k index) forest := by
  simp only [extractCause, map_bind]
  congr 1
  funext given
  cases Forest.find? forest options.className with
  | none => cases options.required <;> rfl
  | some registration =>
    cases given with
    | none => simp only [map_bind]; rfl
    | some version => simp only [map_bind]; rfl

/-- Up to its place, a record depends on its source and what that declares. -/
theorem extract_unplaced (options : RegistrationOptions) (source : Source) (index : Nat)
    (forest : Forest) : (extract options source index forest).toOption.map unplaced =
      (extract options source 0 forest).toOption := by
  rw [extract, extract, ← extractCause_moved (fun _ => 0) options source index forest]
  cases extractCause options source index forest <;> rfl

end Overlay.Record
