import Overlay.Proofs.Record
import Overlay.Proofs.Registry
import Overlay.Registry.Resolve
import Mathlib.Data.List.Dedup

namespace Overlay

def FragmentError.moved (k : Nat → Nat) (e : FragmentError) : FragmentError :=
  { e with index := k e.index }

namespace Registry
open Record (moved unplaced)
open scoped List

section Ascending

variable {k : Nat → Nat} (hk : ∀ i j, k i < k j ↔ i < j)
include hk

/-- Where a record is put in, and which of two claimants is reported, depends on the order of the
places only. -/
theorem place_moved (x : Record) (records : List Record) :
    place (x.moved k) (records.map (moved k)) =
      ((place x records).1.map (moved k), (place x records).2.map (FragmentError.moved k)) := by
  induction records with
  | nil => rfl
  | cons r rs ih =>
    have hi : (x.moved k).index < (r.moved k).index ↔ x.index < r.index := hk x.index r.index
    rw [List.map_cons, place, place, Record.keyOf_moved, Record.keyOf_moved]
    simp only [hi, ih]
    split_ifs <;> rfl

/-- Records at other places that are in the same order are settled in the same way. -/
theorem insertAll_moved (records xs : List Record) :
    insertAll ⟨records.map (moved k)⟩ (xs.map (moved k)) =
      (⟨(insertAll ⟨records⟩ xs).1.records.map (moved k)⟩,
        (insertAll ⟨records⟩ xs).2.map (FragmentError.moved k)) := by
  induction xs generalizing records with
  | nil => rfl
  | cons x xs ih =>
    rw [List.map_cons, insertAll, insertAll, insert, place_moved hk]
    simp only [ih, insert, List.map_append]
    cases (place x records).2 <;> rfl

end Ascending

variable (k : Nat → Nat)

theorem target_moved (records : List Record) (d : Dependency) :
    target? (records.map (moved k)) d = (target? records d).map (moved k) := by
  rw [target?, target?, List.find?_map]
  rfl

theorem targetIndex_moved (records : List Record) (d : Dependency) :
    targetIndex? (records.map (moved k)) d = targetIndex? records d := by
  rw [targetIndex?, targetIndex?, List.findIdx?_map]
  rfl

theorem missingDependency_moved (records : List Record) (r : Record) :
    missingDependency? (records.map (moved k)) (r.moved k) = missingDependency? records r := by
  rw [missingDependency?, missingDependency?]
  congr 1
  funext d
  rw [target_moved]
  cases target? records d <;> rfl

theorem unmetDependency_moved (records : List Record) (r : Record) :
    unmetDependency? (records.map (moved k)) (r.moved k) = unmetDependency? records r := by
  rw [unmetDependency?, unmetDependency?]
  congr 1
  funext d
  rw [target_moved]
  cases target? records d <;> cases d.requirement <;> rfl

theorem fault_moved (records : List Record) (host : Option DeclaredVersion) :
    fault? (records.map (moved k)) host = fault? records host := by
  have hmissing : missingDependency? (records.map (moved k)) ∘ moved k =
      missingDependency? records := funext (missingDependency_moved k records)
  have hunmet : unmetDependency? (records.map (moved k)) ∘ moved k = unmetDependency? records :=
    funext (unmetDependency_moved k records)
  have hhost (v : DeclaredVersion) : unmetHost? v ∘ moved k = unmetHost? v := rfl
  simp only [fault?, List.findSome?_map, hmissing, hunmet, hhost]

theorem graph_moved (records : List Record) : graph (records.map (moved k)) = graph records := by
  have hindex : targetIndex? (records.map (moved k)) = targetIndex? records :=
    funext (targetIndex_moved k records)
  rw [graph, graph, List.map_map, hindex]
  rfl

theorem select_moved (records : List Record) (order : List Nat) :
    select (records.map (moved k)) order = (select records order).map (moved k) := by
  rw [select, select, List.map_filterMap]
  simp only [List.getElem?_map]

/-- The order of a registry does not depend on the places of its records, and neither does the
error. -/
theorem resolve_moved (records : List Record) (host : Option DeclaredVersion) :
    resolve ⟨records.map (moved k)⟩ host = (resolve ⟨records⟩ host).map (List.map (moved k)) := by
  rw [resolve, resolve, fault_moved, graph_moved]
  cases fault? records host with
  | some e => rfl
  | none =>
    cases Order.sort (graph records) with
    | ok order => exact congrArg Except.ok (select_moved k records order)
    | error cycle =>
      simp only [select_moved, List.map_map]
      rfl

theorem resolve_unplaced (records : List Record) (host : Option DeclaredVersion) :
    resolve ⟨records.map unplaced⟩ host = (resolve ⟨records⟩ host).map (List.map unplaced) :=
  resolve_moved (fun _ => 0) records host

/-- As many records are held as there are keys. -/
theorem size_insertAll (xs : List Record) :
    (empty.insertAll xs).1.size = (xs.map keyOf).dedup.length := by
  have hheld : ((empty.insertAll xs).1.records.map keyOf).Nodup :=
    (ascending_insertAll xs List.Pairwise.nil).keys_nodup
  have hkeys : (empty.insertAll xs).1.records.map keyOf ~ (xs.map keyOf).dedup := by
    apply (List.perm_ext_iff_of_nodup hheld (List.nodup_dedup _)).mpr
    intro key
    rw [mem_keys_insertAll, List.mem_dedup]
    simp [empty]
  have hlength := hkeys.length_eq
  rwa [List.length_map] at hlength

theorem size_eq_of_perm {first second : List Record} (h : first.map keyOf ~ second.map keyOf) :
    (empty.insertAll first).1.size = (empty.insertAll second).1.size := by
  rw [size_insertAll, size_insertAll]
  exact h.dedup.length_eq

end Registry

end Overlay
