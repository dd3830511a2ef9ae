import Overlay.Proofs.Registry.Loose
import Overlay.Proofs.Registry.Places
import Overlay.Proofs.Session.Arrival

/-! A fragment without registration, put in among some others. Its record stands under the name of
its source, in the same space of keys as the modules. As long as no other record has that key, the
others are held and reported as they are without it, and their order is the same. -/
namespace Overlay

/-- A fragment that parses and has no registration class nor needs one. If a version is given along
with it, it can be read. -/
structure Source.Loose (options : RegistrationOptions) (u : Source) : Prop where
  declares : ∃ forest, Fragment.parse u.text = .ok forest ∧
    Forest.find? forest options.className = none
  optional : options.required = false
  readable : ∀ text ∈ u.version, ∃ v, DeclaredVersion.read text = .ok v

namespace Session
open Registry (withoutHolder)
open scoped List

/-- No other source makes a record under the key of a fragment without registration. -/
def Apart (options : RegistrationOptions) (others : List Source) (u : Source) : Prop :=
  ∀ source ∈ others, ∀ c, contribution? options source = some c → keyOf c.1 ≠ nameKey u.name

def afterRegistering (options : SessionOptions) (sources : List Source) : Session :=
  (((new options).parse sources).andThen register).session

/-- Two sessions whose records come to the registry in some orders: one with a fragment without
registration behind some sources, and the same session without it. The fragment is accepted, and
nothing changes for the others but the places of those behind it: they have the same records and
errors, and they are resolved to the same order or with the same error. Which holders the errors
name is a matter of the two orders; it is the same as well if the others come in one order. -/
structure Undisturbed (options : SessionOptions) (front back : List Source) (u : Source)
    (arrivals arrivals' : List Record) : Prop where
  accepted : ∃ x ∈ (arrived options (front ++ u :: back) arrivals).registry.records,
    x.index = front.length ∧ x.identity = u.name ∧ x.registered = false
  errors : (arrived options (front ++ u :: back) arrivals).errors.map withoutHolder =
    ((arrived options (front ++ back) arrivals').errors.map
      (FragmentError.moved (shifted front.length))).map withoutHolder
  holders : arrivals.filter (fun r => r.index ≠ front.length) =
      arrivals'.map (Record.moved (shifted front.length)) →
    (arrived options (front ++ u :: back) arrivals).errors =
      (arrived options (front ++ back) arrivals').errors.map
        (FragmentError.moved (shifted front.length))
  records : (arrived options (front ++ u :: back) arrivals).registry.records.filter
      (fun r => r.index ≠ front.length) =
    (arrived options (front ++ back) arrivals').registry.records.map
      (Record.moved (shifted front.length))
  order : ((arrived options (front ++ u :: back) arrivals).registry.resolve
      options.hostVersion).map (List.filter fun r => r.index ≠ front.length) =
    ((arrived options (front ++ back) arrivals').registry.resolve options.hostVersion).map
      (List.map (Record.moved (shifted front.length)))

def movedAttempt (k : Nat → Nat) : Except FragmentError Record → Except FragmentError Record
  | .ok x => .ok (x.moved k)
  | .error e => .error (e.moved k)

def attemptAt? (options : RegistrationOptions) (p : Source × Nat) :
    Option (Except FragmentError Record) :=
  (declared? p.1).map fun forest => Record.extract options p.1 p.2 forest

theorem sortErrors_moved {k : Nat → Nat} (hk : ∀ i j, k i < k j ↔ i < j)
    (errors : List FragmentError) : sortErrors (errors.map (FragmentError.moved k)) =
      (sortErrors errors).map (FragmentError.moved k) := by
  refine (List.map_mergeSort ?_).symm
  intro a _ b _
  have hle : k a.index ≤ k b.index ↔ a.index ≤ b.index := by
    rw [← Nat.not_lt, ← Nat.not_lt, hk]
  exact decide_eq_decide.mpr hle.symm

theorem withoutHolder_moved (k : Nat → Nat) (e : FragmentError) :
    withoutHolder (e.moved k) = (withoutHolder e).moved k := by
  obtain ⟨source, index, cause⟩ := e
  cases cause <;> rfl

theorem recordsOf_moved (k : Nat → Nat) (attempts : List (Except FragmentError Record)) :
    recordsOf (attempts.map (movedAttempt k)) = (recordsOf attempts).map (Record.moved k) := by
  rw [recordsOf, recordsOf, List.filterMap_map, List.map_filterMap]
  congr 1
  funext attempt
  cases attempt <;> rfl

theorem faults_moved (k : Nat → Nat) (attempts : List (Except FragmentError Record)) :
    (attempts.map (movedAttempt k)).filterMap error? =
      (attempts.filterMap error?).map (FragmentError.moved k) := by
  rw [List.filterMap_map, List.map_filterMap]
  congr 1
  funext attempt
  cases attempt <;> rfl

variable {options : SessionOptions} {front back : List Source} {u : Source}
  {arrivals arrivals' : List Record}

/-- What is made of the sources at their places, when one more source is put in among them. -/
theorem filterMap_put_in {β : Type} {f : Source × Nat → Option β} {move : β → β}
    (hf : ∀ source index, f (source, shifted front.length index) = (f (source, index)).map move) :
    (front ++ u :: back).zipIdx.filterMap f =
      (front.zipIdx.filterMap f).map move ++ (f (u, front.length)).toList ++
        ((back.zipIdx front.length).filterMap f).map move := by
  have hfront : front.zipIdx.filterMap f = (front.zipIdx.filterMap f).map move := by
    rw [List.map_filterMap]
    apply List.filterMap_congr
    rintro ⟨source, index⟩ hm
    have hi : index < front.length := by
      have h := List.snd_lt_add_of_mem_zipIdx hm
      simpa using h
    rw [← hf, shifted_of_lt hi]
  have hback : (back.zipIdx (front.length + 1)).filterMap f =
      ((back.zipIdx front.length).filterMap f).map move := by
    rw [List.zipIdx_succ, List.filterMap_map, List.map_filterMap]
    apply List.filterMap_congr
    rintro ⟨source, index⟩ hm
    have hi : front.length ≤ index := List.le_snd_of_mem_zipIdx hm
    rw [← hf, shifted_of_le hi]
    rfl
  rw [List.zipIdx_append, List.filterMap_append, List.zipIdx_cons, List.filterMap_cons, ← hfront,
    Nat.zero_add, hback, List.append_assoc]
  cases f (u, front.length) <;> rfl

/-- A source at another place has the same record or error, at that place. -/
theorem extract_moved (k : Nat → Nat) (options : RegistrationOptions) (source : Source)
    (index : Nat) (forest : Forest) : Record.extract options source (k index) forest =
      movedAttempt k (Record.extract options source index forest) := by
  rw [Record.extract, Record.extract, ← Record.extractCause_moved]
  cases Record.extractCause options source index forest <;> rfl

theorem attemptAt_moved (k : Nat → Nat) (options : RegistrationOptions) (source : Source)
    (index : Nat) : attemptAt? options (source, k index) =
      (attemptAt? options (source, index)).map (movedAttempt k) := by
  rw [attemptAt?, attemptAt?, Option.map_map]
  exact congrArg (Option.map · _) (funext fun forest => extract_moved k options source index forest)

theorem parseSource_moved (k : Nat → Nat) (source : Source) (index : Nat) :
    error? (parseSource (k index) source) =
      (error? (parseSource index source)).map (FragmentError.moved k) := by
  rw [parseSource, parseSource]
  cases Fragment.parse source.text <;> rfl

theorem extracted_afterParsing (options : SessionOptions) (sources : List Source) :
    (afterParsing options sources).extracted =
      sources.zipIdx.filterMap (attemptAt? options.registration) := by
  have hoptions : (afterParsing options sources).options = options := rfl
  rw [extracted, parsed_afterParsing, hoptions, List.map_filterMap]
  congr 1
  funext p
  obtain ⟨source, index⟩ := p
  rw [attemptAt?, Option.map_map]
  rfl

/-- A fragment without registration has a record wherever it is put in. -/
theorem attempt_loose {options : RegistrationOptions} (hu : u.Loose options) (index : Nat) :
    ∃ x, attemptAt? options (u, index) = some (.ok x) ∧ x.Loose ∧ x.index = index ∧
      x.identity = u.name := by
  obtain ⟨forest, hparse, hnone⟩ := hu.declares
  obtain ⟨given, hgiven⟩ : ∃ given, u.version.mapM (Record.readVersion .declaredVersion) =
      Except.ok given := by
    cases hv : u.version with
    | none => exact ⟨none, rfl⟩
    | some text =>
      obtain ⟨v, hread⟩ := hu.readable text (by simp [hv])
      exact ⟨some v, by simp [Record.readVersion, hread, Except.mapError]⟩
  let x : Record :=
    ⟨u.name, false, given, none, [], [], [], u.name, index, Digest.ofText u.text⟩
  have hcause : Record.extractCause options u index forest = .ok x := by
    rw [Record.extractCause, hgiven]
    simp only [hnone, hu.optional]
    rfl
  refine ⟨x, ?_, ⟨rfl, rfl, rfl⟩, rfl, rfl⟩
  rw [attemptAt?, declared?, hparse, Except.toOption, Option.map_some, Record.extract, hcause]
  rfl

/-- The fragment parses, so parsing reports the errors of the others only. -/
theorem errors_put_in (hu : u.Loose options.registration) :
    (afterParsing options (front ++ u :: back)).errors =
      (afterParsing options (front ++ back)).errors.map
        (FragmentError.moved (shifted front.length)) := by
  obtain ⟨forest, hparse, -⟩ := hu.declares
  have hnone : error? (parseSource front.length u) = none := by
    rw [parseSource, hparse]
    rfl
  rw [errors_afterParsing, errors_afterParsing,
    filterMap_put_in fun source index => parseSource_moved (shifted front.length) source index]
  dsimp only
  rw [hnone, List.zipIdx_append, List.filterMap_append, List.map_append, Nat.zero_add]
  simp

/-- What is extracted from the sources with the fragment put in: the record of the fragment, the
records of the others, and their errors. -/
structure PutIn (options : SessionOptions) (front back : List Source) (u : Source) (x : Record) :
    Prop where
  loose : x.Loose
  index_eq : x.index = front.length
  identity_eq : x.identity = u.name
  mem_records : x ∈ recordsOf (afterParsing options (front ++ u :: back)).extracted
  others : (recordsOf (afterParsing options (front ++ u :: back)).extracted).filter
      (fun r => r.index ≠ front.length) =
    (recordsOf (afterParsing options (front ++ back)).extracted).map
      (Record.moved (shifted front.length))
  faults : (afterParsing options (front ++ u :: back)).extracted.filterMap error? =
    ((afterParsing options (front ++ back)).extracted.filterMap error?).map
      (FragmentError.moved (shifted front.length))

/-- No moved record stands where there is room for another one. -/
theorem filter_moved (n : Nat) (records : List Record) :
    (records.map (Record.moved (shifted n))).filter (fun r => r.index ≠ n) =
      records.map (Record.moved (shifted n)) := by
  apply List.filter_eq_self.mpr
  intro r hr
  obtain ⟨r, -, rfl⟩ := List.mem_map.mp hr
  exact decide_eq_true (shifted_ne _ _)

/-- The record of the fragment is put in among those of the others, which have only moved. -/
theorem exists_putIn (hu : u.Loose options.registration) (front back : List Source) :
    ∃ x, PutIn options front back u x := by
  obtain ⟨x, hx, hloose, hindex, hidentity⟩ := attempt_loose hu front.length
  -- the attempts for the sources in front and for those behind
  obtain ⟨first, hfirst⟩ : ∃ first, front.zipIdx.filterMap (attemptAt? options.registration) =
      first := ⟨_, rfl⟩
  obtain ⟨second, hsecond⟩ : ∃ second,
      (back.zipIdx front.length).filterMap (attemptAt? options.registration) = second := ⟨_, rfl⟩
  have hout : (afterParsing options (front ++ back)).extracted = first ++ second := by
    rw [extracted_afterParsing, List.zipIdx_append, List.filterMap_append, Nat.zero_add, hfirst,
      hsecond]
  have hin : (afterParsing options (front ++ u :: back)).extracted =
      first.map (movedAttempt (shifted front.length)) ++
        .ok x :: second.map (movedAttempt (shifted front.length)) := by
    rw [extracted_afterParsing,
      filterMap_put_in fun source index => attemptAt_moved _ options.registration source index, hx,
      hfirst, hsecond]
    simp
  have hrecords : recordsOf (afterParsing options (front ++ u :: back)).extracted =
      (recordsOf first).map (Record.moved (shifted front.length)) ++
        x :: (recordsOf second).map (Record.moved (shifted front.length)) := by
    rw [hin, ← recordsOf_moved, ← recordsOf_moved]
    exact List.filterMap_append
  refine ⟨x, hloose, hindex, hidentity, ?_, ?_, ?_⟩
  · rw [hrecords]
    exact List.mem_append_right _ List.mem_cons_self
  · have hothers : recordsOf (first ++ second) = recordsOf first ++ recordsOf second :=
      List.filterMap_append
    rw [hrecords, hout, hothers, List.map_append, List.filter_append,
      List.filter_cons_of_neg (by simpa using hindex), filter_moved, filter_moved]
  · rw [hin, hout, List.filterMap_append, List.filterMap_cons_none rfl, faults_moved,
      faults_moved, ← List.map_append, ← List.filterMap_append]

/-- An order in which the records come, around the record of the fragment. -/
theorem split_arrivals {x : Record} (hx : PutIn options front back u x)
    (ha : arrivals ~ recordsOf (afterParsing options (front ++ u :: back)).extracted) :
    ∃ before after, arrivals = before ++ x :: after ∧
      arrivals.filter (fun r => r.index ≠ front.length) = before ++ after := by
  obtain ⟨before, after, rfl⟩ := List.append_of_mem (ha.mem_iff.mpr hx.mem_records)
  refine ⟨before, after, rfl, ?_⟩
  have hd := (ha.map Record.index).nodup_iff.mpr (index_nodup _)
  rw [List.map_append, List.map_cons, List.nodup_middle, List.nodup_cons, hx.index_eq,
    ← List.map_append] at hd
  -- no other record stands at the place of the fragment
  have hothers : ∀ r ∈ before ++ after, decide (r.index ≠ front.length) = true := by
    intro r hr
    exact decide_eq_true fun heq => hd.1 (heq ▸ List.mem_map_of_mem hr)
  rw [List.filter_append, List.filter_cons_of_neg (by simpa using hx.index_eq),
    ← List.filter_append]
  exact List.filter_eq_self.mpr hothers

/-- A fragment is apart from others exactly if its key is none of those of their records. -/
theorem apart_iff : Apart options.registration (front ++ back) u ↔
    nameKey u.name ∉ (recordsOf (afterParsing options (front ++ back)).extracted).map keyOf := by
  rw [keys_extracted]
  constructor
  · intro h hm
    obtain ⟨c, hc, hk⟩ := List.mem_map.mp hm
    obtain ⟨source, hs, hc⟩ := List.mem_filterMap.mp hc
    exact h source hs c hc hk
  · intro h source hs c hc hk
    exact h (List.mem_map.mpr ⟨c, List.mem_filterMap.mpr ⟨source, hs, hc⟩, hk⟩)

theorem keys_registered (options : SessionOptions) (sources : List Source) (key : String) :
    key ∈ (registered options sources).1.records.map keyOf ↔
      key ∈ (recordsOf (afterParsing options sources).extracted).map keyOf := by
  rw [(registered_eq options sources).1, Registry.mem_keys_insertAll]
  simp [Registry.empty]

/-- If the others come in one order, the registry and the errors with the fragment are those without
it, and its record. -/
theorem insertAll_put_in {x : Record} (hx : PutIn options front back u x)
    (ha : arrivals ~ recordsOf (afterParsing options (front ++ u :: back)).extracted)
    (hsame : arrivals.filter (fun r => r.index ≠ front.length) =
      arrivals'.map (Record.moved (shifted front.length)))
    (hnew : keyOf x ∉ arrivals'.map keyOf) :
    Registry.empty.insertAll arrivals =
      (⟨(Registry.place x ((Registry.empty.insertAll arrivals').1.records.map
          (Record.moved (shifted front.length)))).1⟩,
        (Registry.empty.insertAll arrivals').2.map
          (FragmentError.moved (shifted front.length))) := by
  obtain ⟨before, after, hsplit, hothers⟩ := split_arrivals hx ha
  have hmoved := Registry.insertAll_moved (k := shifted front.length) (fun _ _ => shifted_lt_iff)
    [] arrivals'
  have hkeys : (before ++ after).map keyOf = arrivals'.map keyOf := by
    rw [← hothers, hsame, List.map_map]
    rfl
  rw [List.map_nil, ← hsame, hothers] at hmoved
  rw [hsplit, Registry.empty, Registry.insertAll_new (by simp) (hkeys ▸ hnew), hmoved]

/-- In the order of the inputs the others come in one order, with the fragment and without it. -/
theorem registered_put_in {x : Record} (hx : PutIn options front back u x)
    (hnew : keyOf x ∉ (recordsOf (afterParsing options (front ++ back)).extracted).map keyOf) :
    (registered options (front ++ u :: back)).1 =
      ⟨(Registry.place x ((registered options (front ++ back)).1.records.map
        (Record.moved (shifted front.length)))).1⟩ := by
  rw [(registered_eq _ _).1, (registered_eq _ _).1,
    insertAll_put_in hx (List.Perm.refl _) hx.others hnew]

theorem afterRegistering_eq (options : SessionOptions) (sources : List Source) :
    (afterRegistering options sources).registry = (registered options sources).1 ∧
      (afterRegistering options sources).errors = findings options sources := by
  rw [afterRegistering, (parse_andThen options sources register).2]
  exact session_register rfl

section Putting

variable (hu : u.Loose options.registration)
  (ha : arrivals ~ recordsOf (afterParsing options (front ++ u :: back)).extracted)
  (ha' : arrivals' ~ recordsOf (afterParsing options (front ++ back)).extracted)
include hu ha

/-- If the others come in one order, even the holders in their errors are the same. -/
theorem holders_put_in {x : Record} (hx : PutIn options front back u x)
    (hsame : arrivals.filter (fun r => r.index ≠ front.length) =
      arrivals'.map (Record.moved (shifted front.length)))
    (hnew : keyOf x ∉ arrivals'.map keyOf) :
    (arrived options (front ++ u :: back) arrivals).errors =
      (arrived options (front ++ back) arrivals').errors.map
        (FragmentError.moved (shifted front.length)) := by
  rw [arrived, arrived, insertAll_put_in hx ha hsame hnew]
  dsimp only
  rw [errors_put_in hu, hx.faults, ← List.map_append, ← List.map_append,
    sortErrors_moved fun _ _ => shifted_lt_iff]

include ha'

/-- Up to the holders, the errors can be compared where all records come in the order of the
inputs. -/
theorem errors_arrived_put_in {x : Record} (hx : PutIn options front back u x)
    (hnew : keyOf x ∉ (recordsOf (afterParsing options (front ++ back)).extracted).map keyOf) :
    (arrived options (front ++ u :: back) arrivals).errors.map withoutHolder =
      ((arrived options (front ++ back) arrivals').errors.map
        (FragmentError.moved (shifted front.length))).map withoutHolder := by
  have hswap (errors : List FragmentError) :
      (errors.map (FragmentError.moved (shifted front.length))).map withoutHolder =
        (errors.map withoutHolder).map (FragmentError.moved (shifted front.length)) := by
    rw [List.map_map, List.map_map]
    exact List.map_congr_left fun e _ => withoutHolder_moved _ e
  rw [hswap, errors_arrived ha, errors_arrived ha', ← hswap, ← errors_in_order, ← errors_in_order,
    holders_put_in hu (List.Perm.refl _) hx hx.others hnew]

/-- A record of a new key is put in and nothing else changes. -/
theorem undisturbed_of_apart (happart : Apart options.registration (front ++ back) u) :
    Undisturbed options front back u arrivals arrivals' := by
  obtain ⟨x, hx⟩ := exists_putIn hu front back
  have hkey : keyOf x = nameKey u.name := congrArg nameKey hx.identity_eq
  have hnew := apart_iff.mp happart
  rw [← hkey] at hnew
  -- moved records keep their keys
  have hfree : keyOf x ∉ ((registered options (front ++ back)).1.records.map
      (Record.moved (shifted front.length))).map keyOf := by
    have hkeys : ((registered options (front ++ back)).1.records.map
        (Record.moved (shifted front.length))).map keyOf =
        (registered options (front ++ back)).1.records.map keyOf := List.map_map
    rwa [hkeys, keys_registered]
  obtain ⟨before, after, hothers, hplace⟩ := Registry.place_new hfree
  have hregistry : (arrived options (front ++ u :: back) arrivals).registry =
      ⟨before ++ x :: after⟩ := by
    rw [registry_arrived ha, registered_put_in hx hnew, hplace]
  have hat : decide (x.index ≠ front.length) = false := decide_eq_false fun h => h hx.index_eq
  have hrest : ∀ r ∈ before ++ after, decide (r.index ≠ front.length) = true := by
    rw [← hothers]
    exact List.filter_eq_self.mp (filter_moved _ _)
  have hascending : Registry.Ascending (before ++ after) := by
    rw [← hothers]
    exact List.pairwise_map.mpr (ascending_registered options (front ++ back))
  refine ⟨⟨x, ?_, hx.index_eq, hx.identity_eq, hx.loose.registered⟩,
    errors_arrived_put_in hu ha ha' hx hnew, ?_, ?_, ?_⟩
  · rw [hregistry]
    exact List.mem_append_right _ List.mem_cons_self
  · intro hsame
    exact holders_put_in hu ha hx hsame fun hm => hnew ((ha'.map keyOf).mem_iff.mp hm)
  · rw [hregistry, registry_arrived ha', hothers, List.filter_append,
      List.filter_cons_of_neg (by simpa using hx.index_eq), ← List.filter_append]
    exact List.filter_eq_self.mpr hrest
  · rw [hregistry, registry_arrived ha', Registry.resolve_loose hx.loose hascending hat hrest,
      ← hothers, Registry.resolve_moved]

/-- If the key is taken, there is one error more than without the fragment. -/
theorem apart_of_undisturbed (h : Undisturbed options front back u arrivals arrivals') :
    Apart options.registration (front ++ back) u := by
  obtain ⟨x, hx⟩ := exists_putIn hu front back
  have hkey : keyOf x = nameKey u.name := congrArg nameKey hx.identity_eq
  rw [apart_iff, ← hkey]
  intro htaken
  -- there are as many errors with the fragment as without it
  have hlength : (findings options (front ++ u :: back)).length =
      (findings options (front ++ back)).length := by
    have herrors := congrArg List.length h.errors
    have hwith := congrArg List.length (error_places_arrived ha)
    have hwithout := congrArg List.length (error_places_arrived ha')
    simp only [List.length_map] at herrors hwith hwithout
    omega
  -- there is one record more, but no key that is new
  have hkeys : (recordsOf (afterParsing options (front ++ u :: back)).extracted).map keyOf ~
      keyOf x :: (recordsOf (afterParsing options (front ++ back)).extracted).map keyOf := by
    obtain ⟨before, after, hsplit, hothers⟩ := split_arrivals hx (List.Perm.refl _)
    have hrest : (before ++ after).map keyOf =
        (recordsOf (afterParsing options (front ++ back)).extracted).map keyOf := by
      rw [← hothers, hx.others, List.map_map]
      rfl
    rw [hsplit, ← hrest]
    exact List.perm_middle.map keyOf
  have hsize : (registered options (front ++ u :: back)).1.size =
      (registered options (front ++ back)).1.size := by
    rw [(registered_eq _ _).1, (registered_eq _ _).1, Registry.size_insertAll,
      Registry.size_insertAll, hkeys.dedup.length_eq, List.dedup_cons_of_mem htaken]
  -- each source is held or has an error, so the numbers cannot both be the same
  have hwith := length_findings options (front ++ u :: back)
  have hwithout := length_findings options (front ++ back)
  simp only [List.length_append, List.length_cons] at hwith hwithout
  omega

end Putting

/-- In whichever orders the records come, a fragment without registration leaves the others alone
exactly if none of them makes a record under the key of its source. -/
theorem undisturbed_iff_apart (options : SessionOptions) (front back : List Source) (u : Source)
    (arrivals arrivals' : List Record) (hu : u.Loose options.registration)
    (ha : arrivals ~ recordsOf (afterParsing options (front ++ u :: back)).extracted)
    (ha' : arrivals' ~ recordsOf (afterParsing options (front ++ back)).extracted) :
    Undisturbed options front back u arrivals arrivals' ↔
      Apart options.registration (front ++ back) u :=
  ⟨apart_of_undisturbed hu ha ha', undisturbed_of_apart hu ha ha'⟩

-- A module by the name of `Core`.
def held : Source := ⟨"core.cpp", "class CfgPatches{class Core{};};", none⟩

def bare (name : String) : Source := ⟨name, "class A{};", none⟩

theorem bare_loose (name : String) : (bare name).Loose .default := by
  have hnone : ((Fragment.parse "class A{};").toOption.any fun forest =>
      (Forest.find? forest "CfgPatches").isNone) = true := by decide +kernel
  refine ⟨?_, rfl, by simp [bare]⟩
  change ∃ forest, Fragment.parse "class A{};" = .ok forest ∧
    Forest.find? forest "CfgPatches" = none
  cases h : Fragment.parse "class A{};" with
  | ok forest =>
    rw [h] at hnone
    exact ⟨forest, rfl, Option.isNone_iff_eq_none.mp hnone⟩
  | error e =>
    rw [h] at hnone
    exact absurd hnone Bool.false_ne_true

theorem held_apart : Apart .default [held] (bare "a.cpp") := by
  have hkeys : ((contribution? .default held).all fun c => keyOf c.1 ≠ nameKey "a.cpp") = true := by
    decide +kernel
  intro source hs c hc
  rw [List.mem_singleton.mp hs] at hc
  rw [hc] at hkeys
  simpa [bare] using hkeys

theorem undisturbed_held :
    let options : SessionOptions := ⟨.default, none, .skip, true⟩
    let arrivals := (recordsOf (afterParsing options [held, bare "a.cpp"]).extracted).reverse
    let arrivals' := recordsOf (afterParsing options [held]).extracted
    (bare "a.cpp").Loose .default ∧
      arrivals ~ recordsOf (afterParsing options [held, bare "a.cpp"]).extracted ∧
      arrivals' ~ recordsOf (afterParsing options [held]).extracted ∧
      Undisturbed options [held] [] (bare "a.cpp") arrivals arrivals' := by
  intro options arrivals arrivals'
  have ha := List.reverse_perm (recordsOf (afterParsing options [held, bare "a.cpp"]).extracted)
  have ha' := List.Perm.refl (recordsOf (afterParsing options [held]).extracted)
  exact ⟨bare_loose _, ha, ha',
    (undisturbed_iff_apart options [held] [] _ _ _ (bare_loose _) ha ha').mpr held_apart⟩

/-- A module may have the key of the source of another fragment, which is lost then. -/
theorem bare_not_accepted : ¬ ∀ (options : SessionOptions) (front back : List Source) (u : Source),
    ((front ++ u :: back).map Source.name).Nodup → u.Loose options.registration →
      ∃ x ∈ (afterRegistering options (front ++ u :: back)).registry.records,
        x.index = front.length := by
  intro hall
  let options : SessionOptions := ⟨.default, none, .skip, true⟩
  obtain ⟨x, hx, hindex⟩ := hall options [held] [] (bare "core") (by decide) (bare_loose _)
  have hclaims : (recordsOf (afterParsing options [held, bare "core"]).extracted).map
      (fun r => (r.index, keyOf r)) = [(0, "core"), (1, "core")] := by decide +kernel
  rw [(afterRegistering_eq _ _).1, (registered_eq _ _).1, Registry.held_iff (index_nodup _)] at hx
  obtain ⟨hx, hleast⟩ := hx
  -- the module claims the key from further in front
  have hlast : (x.index, keyOf x) ∈ [(0, "core"), (1, "core")] := by
    rw [← hclaims]
    exact List.mem_map_of_mem hx
  obtain ⟨r, hr, hfirst⟩ : ∃ r ∈ recordsOf (afterParsing options [held, bare "core"]).extracted,
      (r.index, keyOf r) = (0, "core") := by
    rw [← List.mem_map, hclaims]
    exact List.mem_cons_self
  obtain ⟨hplace, hkey⟩ := Prod.mk.inj hfirst
  have hxkey : keyOf x = "core" := by simpa [hindex] using hlast
  have hle := hleast r hr (hkey.trans hxkey.symm)
  rw [hplace, hindex] at hle
  exact absurd hle (by decide)

end Session

end Overlay
