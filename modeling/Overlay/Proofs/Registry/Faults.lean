import Overlay.Proofs.Registry.Resolve
import Mathlib.Data.Fintype.Card
import Mathlib.Data.Set.Finite.List
import Mathlib.Logic.Relation

namespace Overlay.Registry
open Relation (TransGen)

def FirstWithout {α : Type} (P : α → Prop) (xs : List α) (x : α) : Prop :=
  ∃ before after, xs = before ++ x :: after ∧ ¬ P x ∧ ∀ y ∈ before, P y

def Known (records : List Record) (d : Dependency) : Prop := ∃ t, Names records d t

def Met (records : List Record) (d : Dependency) : Prop := ∀ t, Names records d t → t.Suits d

def Fits (host : DeclaredVersion) (x : Record) : Prop :=
  ∀ required, x.requiredVersion = some required → compare required.version host.version ≠ .gt

def Needs (records : List Record) (x y : Record) : Prop :=
  x ∈ records ∧ ∃ d ∈ x.dependencies, Names records d y

def Cyclic (records : List Record) : Prop := ∃ x, TransGen (Needs records) x x

/-- What an order takes. -/
structure Resolvable (records : List Record) (host : Option DeclaredVersion) : Prop where
  known : ∀ x ∈ records, ∀ d ∈ x.dependencies, Known records d
  met : ∀ x ∈ records, ∀ d ∈ x.dependencies, Met records d
  fits : ∀ h ∈ host, ∀ x ∈ records, Fits h x
  acyclic : ¬ Cyclic records

/-- What is reported if there is no order: the first fault of the first kind there is. -/
inductive Reported (records : List Record) (host : Option DeclaredVersion) : ResolveError → Prop
  | missing {x : Record} {d : Dependency}
      (hx : FirstWithout (fun x => ∀ d ∈ x.dependencies, Known records d) records x)
      (hd : FirstWithout (Known records) x.dependencies d) :
      Reported records host (.missing x.source x.identity d.identity)
  | unmet {x t : Record} {d : Dependency} {requirement : Requirement}
      (hknown : ∀ x ∈ records, ∀ d ∈ x.dependencies, Known records d)
      (hx : FirstWithout (fun x => ∀ d ∈ x.dependencies, Met records d) records x)
      (hd : FirstWithout (Met records) x.dependencies d) (ht : Names records d t)
      (hr : d.requirement = some requirement) :
      Reported records host (.unmet x.source x.identity t.identity requirement t.version)
  | hostTooOld {x : Record} {h required : DeclaredVersion}
      (hknown : ∀ x ∈ records, ∀ d ∈ x.dependencies, Known records d)
      (hmet : ∀ x ∈ records, ∀ d ∈ x.dependencies, Met records d)
      (hh : h ∈ host) (hx : FirstWithout (Fits h) records x)
      (hr : x.requiredVersion = some required) :
      Reported records host (.hostTooOld x.source x.identity required h)
  | cycle {identities : List String}
      (hknown : ∀ x ∈ records, ∀ d ∈ x.dependencies, Known records d)
      (hmet : ∀ x ∈ records, ∀ d ∈ x.dependencies, Met records d)
      (hfits : ∀ h ∈ host, ∀ x ∈ records, Fits h x) (hc : Cyclic records) :
      Reported records host (.cycle identities)

variable {records : List Record} {host : Option DeclaredVersion}

/-- What a search comes upon is found at the first thing that lacks a property. -/
theorem first_of_findSome {α β : Type} {f : α → Option β} {P : α → Prop} {xs : List α} {b : β}
    (hf : ∀ x, f x = none ↔ P x) (h : xs.findSome? f = some b) :
    ∃ x, FirstWithout P xs x ∧ f x = some b := by
  obtain ⟨before, x, after, rfl, hb, hnone⟩ := List.findSome?_eq_some_iff.mp h
  refine ⟨x, ⟨before, after, rfl, ?_, fun y hy => (hf y).mp (hnone y hy)⟩, hb⟩
  intro hx
  rw [(hf x).mpr hx] at hb
  exact nomatch hb

/-- In a registry the target of a dependency is the registered record that it names. -/
theorem target_eq_some_iff (ha : Ascending records) {d : Dependency} {t : Record} :
    target? records d = some t ↔ Names records d t :=
  ⟨names_of_target, target_of_names ha⟩

/-- No dependency of a record is missing exactly if all are known. -/
theorem missing_none_iff (ha : Ascending records) {x : Record} :
    missingDependency? records x = none ↔ ∀ d ∈ x.dependencies, Known records d := by
  simp only [missing_eq_none_iff, target_eq_some_iff ha, Known]

/-- No requirement of a record is unmet exactly if all are met. -/
theorem unmet_none_iff (ha : Ascending records) {x : Record} :
    unmetDependency? records x = none ↔ ∀ d ∈ x.dependencies, Met records d := by
  simp only [unmet_eq_none_iff, target_eq_some_iff ha, Met, suits_iff]

theorem host_none_iff {h : DeclaredVersion} {x : Record} : unmetHost? h x = none ↔ Fits h x := by
  rw [unmetHost?, Fits]
  cases x.requiredVersion <;> simp

/-- There is no fault exactly if all dependencies are known and met and every record fits the
host. -/
theorem no_fault_iff (ha : Ascending records) : fault? records host = none ↔
    (∀ x ∈ records, ∀ d ∈ x.dependencies, Known records d) ∧
      (∀ x ∈ records, ∀ d ∈ x.dependencies, Met records d) ∧
      ∀ h ∈ host, ∀ x ∈ records, Fits h x := by
  simp only [fault_eq_none_iff, missing_none_iff ha, unmet_none_iff ha, host_none_iff]

/-- A dependency that is missing is reported before anything else. -/
theorem reported_missing (ha : Ascending records) {e : ResolveError}
    (h : records.findSome? (missingDependency? records) = some e) : Reported records host e := by
  obtain ⟨x, hx, he⟩ := first_of_findSome (fun _ => missing_none_iff ha) h
  rw [missingDependency?] at he
  obtain ⟨d, hd, he⟩ := first_of_findSome (P := Known records)
    (fun d => by simp only [Known, ← target_eq_some_iff ha]; cases target? records d <;> simp) he
  cases ht : target? records d with
  | some t => simp [ht] at he
  | none =>
    simp only [ht, Option.some.injEq] at he
    rw [← he]
    exact .missing hx hd

/-- A requirement that is not met is reported if nothing is missing. -/
theorem reported_unmet (ha : Ascending records) {e : ResolveError}
    (hm : ∀ x ∈ records, ∀ d ∈ x.dependencies, Known records d)
    (h : records.findSome? (unmetDependency? records) = some e) : Reported records host e := by
  obtain ⟨x, hx, he⟩ := first_of_findSome (fun _ => unmet_none_iff ha) h
  rw [unmetDependency?] at he
  obtain ⟨d, hd, he⟩ := first_of_findSome (P := Met records) (fun d => by
    simp only [Met, suits_iff, ← target_eq_some_iff ha]
    cases target? records d <;> cases d.requirement <;> simp) he
  cases ht : target? records d with
  | none => simp [ht] at he
  | some t =>
    cases hr : d.requirement with
    | none => simp [ht, hr] at he
    | some requirement =>
      simp only [ht, hr, ite_eq_iff, Option.some.injEq, reduceCtorEq, and_false, false_or] at he
      rw [← he.2]
      exact .unmet hm hx hd (names_of_target ht) hr

theorem reported_host {h : DeclaredVersion} {e : ResolveError} (hh : h ∈ host)
    (hm : ∀ x ∈ records, ∀ d ∈ x.dependencies, Known records d)
    (hu : ∀ x ∈ records, ∀ d ∈ x.dependencies, Met records d)
    (he : records.findSome? (unmetHost? h) = some e) : Reported records host e := by
  obtain ⟨x, hx, he⟩ := first_of_findSome (fun _ => host_none_iff) he
  obtain ⟨required, hr, he⟩ := Option.bind_eq_some_iff.mp he
  simp only [ite_eq_iff, Option.some.injEq, reduceCtorEq, and_false, or_false] at he
  rw [← he.2]
  exact .hostTooOld hm hu hh hx hr

/-- The kinds of faults are looked for one after the other. -/
theorem reported_of_fault (ha : Ascending records) {e : ResolveError}
    (h : fault? records host = some e) : Reported records host e := by
  rw [fault?] at h
  cases hmissing : records.findSome? (missingDependency? records) with
  | some e' =>
    rw [hmissing] at h
    exact reported_missing ha (hmissing.trans h)
  | none =>
    have hm : ∀ x ∈ records, ∀ d ∈ x.dependencies, Known records d := fun x hx =>
      (missing_none_iff ha).mp (List.findSome?_eq_none_iff.mp hmissing x hx)
    cases hunmet : records.findSome? (unmetDependency? records) with
    | some e' =>
      rw [hmissing, hunmet] at h
      exact reported_unmet ha hm (hunmet.trans h)
    | none =>
      have hu : ∀ x ∈ records, ∀ d ∈ x.dependencies, Met records d := fun x hx =>
        (unmet_none_iff ha).mp (List.findSome?_eq_none_iff.mp hunmet x hx)
      rw [hmissing, hunmet] at h
      obtain ⟨v, hv, he⟩ := Option.bind_eq_some_iff.mp h
      exact reported_host hv hm hu he

/-- Where each member of a finite set has a successor in the set, there is a circle. -/
theorem exists_circle {α : Type} {r : α → α → Prop} {s : List α} (hs : ∃ x, x ∈ s)
    (h : ∀ x ∈ s, ∃ y ∈ s, r x y) : ∃ x, TransGen r x x := by
  by_contra! hno
  have : Finite {x // x ∈ s} := (List.finite_toSet s).to_subtype
  let below (y x : {x // x ∈ s}) : Prop := TransGen r x y
  have : IsTrans {x // x ∈ s} below := ⟨fun _ _ _ hyx hzy => hzy.trans hyx⟩
  have : Std.Irrefl below := ⟨fun x => hno x⟩
  have hwf : WellFounded below := Finite.wellFounded_of_trans_of_irrefl below
  obtain ⟨x, hx⟩ := hs
  obtain ⟨m, -, hm⟩ := hwf.has_min Set.univ ⟨⟨x, hx⟩, trivial⟩
  obtain ⟨y, hy, hr⟩ := h m m.2
  exact hm ⟨y, hy⟩ trivial (TransGen.single hr)

/-- A record that is not satisfied needs one that is not in front. -/
theorem needs_of_not_satisfied {front : List Record} {x : Record} (hx : x ∈ records)
    (h : ¬ Satisfied records front x) : ∃ y, Needs records x y ∧ y ∉ front := by
  rw [Satisfied] at h
  push Not at h
  obtain ⟨d, hd, t, hn, ht⟩ := h
  exact ⟨t, ⟨hx, d, hd, hn⟩, ht⟩

/-- If the graph cannot be sorted, each record that is left depends on one that is left. -/
theorem cyclic_of_unsorted (ha : Ascending records) {cycle : List Nat}
    (h : Order.sort (graph records) = .error cycle) : Cyclic records := by
  obtain ⟨⟨i, hi, hnot⟩, hleft⟩ := Order.sort_eq_error h
  have hlength : (graph records).length = records.length := by simp [graph]
  rw [hlength] at hi hleft
  -- the records that could be placed; those left over wait for each other
  let front := select records (Order.Progress.final (graph records)).placed
  have hfront {j : Nat} {x : Record} (hx : records[j]? = some x) :
      x ∉ front ↔ j ∉ (Order.Progress.final (graph records)).placed :=
    not_congr (mem_select_iff ha hx _)
  apply exists_circle (s := records.filter (· ∉ front))
  · have hx : records[i]? = some records[i] := List.getElem?_eq_getElem hi
    have hleftover : records[i] ∉ front := (hfront hx).mpr hnot
    exact ⟨records[i], List.mem_filter.mpr ⟨List.getElem_mem hi, by simpa using hleftover⟩⟩
  · intro x hx
    obtain ⟨hm, hxf⟩ := List.mem_filter.mp hx
    obtain ⟨j, hj⟩ := List.getElem?_of_mem hm
    have hjl : j < records.length := (List.getElem?_eq_some_iff.mp hj).1
    have hjnot := (hfront hj).mp (by simpa using hxf)
    have hunsatisfied : ¬ Satisfied records front x := by
      rw [← requires_mem_iff ha hj]
      push Not
      exact hleft j hjl hjnot
    obtain ⟨y, hy, hyf⟩ := needs_of_not_satisfied hm hunsatisfied
    obtain ⟨-, d, -, hn⟩ := id hy
    exact ⟨y, List.mem_filter.mpr ⟨hn.1, by simpa using hyf⟩, hy⟩

/-- In a topological order whatever a record depends on stands in front of it. -/
theorem idxOf_lt_of_needs {order : List Record} (ht : Topological records order)
    (hd : order.Nodup) {x y : Record} (h : Needs records x y) : order.idxOf y < order.idxOf x := by
  obtain ⟨hx, d, hdep, hn⟩ := h
  obtain ⟨front, rest, rfl⟩ := List.append_of_mem (ht.perm.mem_iff.mpr hx)
  have hy : y ∈ front := ht.satisfied front x rest rfl d hdep y hn
  have hxf : x ∉ front := fun hm => List.disjoint_of_nodup_append hd hm List.mem_cons_self
  rw [List.idxOf_append_of_mem hy, List.idxOf_append_of_notMem hxf, List.idxOf_cons_self,
    Nat.add_zero]
  exact List.idxOf_lt_length_of_mem hy

/-- Records in a circle cannot all come behind those that they depend on. -/
theorem acyclic_of_topological {order : List Record} (ht : Topological records order)
    (hd : order.Nodup) : ¬ Cyclic records := by
  rintro ⟨x, hx⟩
  have hlt {y : Record} (h : TransGen (Needs records) x y) : order.idxOf y < order.idxOf x := by
    induction h with
    | single h => exact idxOf_lt_of_needs ht hd h
    | tail _ h ih => exact (idxOf_lt_of_needs ht hd h).trans ih
  exact lt_irrefl _ (hlt hx)

/-- There is an order exactly if nothing is wrong: every dependency names a registered record of a
version that suits it, the host is recent enough for all, and no records depend on each other in a
circle. Otherwise the first fault, in the order of the keys, of the first of these kinds is
reported. -/
theorem resolve_ok_iff_resolvable (inserted : List Record) (host : Option DeclaredVersion) :
    let registry := (empty.insertAll inserted).1
    Ascending registry.records ∧
      ((∃ order, registry.resolve host = .ok order) ↔ Resolvable registry.records host) ∧
      ∀ e, registry.resolve host = .error e → Reported registry.records host e := by
  intro registry
  have ha : Ascending registry.records := ascending_insertAll inserted List.Pairwise.nil
  refine ⟨ha, ⟨?_, ?_⟩, ?_⟩
  · rintro ⟨order, h⟩
    obtain ⟨hf, nodes, hs, -⟩ := resolve_eq_ok h
    obtain ⟨hm, hu, hh⟩ := (no_fault_iff ha).mp hf
    have ht := (select_sorted ha hs).1
    exact ⟨hm, hu, hh, acyclic_of_topological ht (ht.perm.nodup_iff.mpr ha.nodup)⟩
  · intro h
    have hf := (no_fault_iff ha).mpr ⟨h.known, h.met, h.fits⟩
    -- a graph that cannot be sorted has a circle
    cases hs : Order.sort (graph registry.records) with
    | error cycle => exact absurd (cyclic_of_unsorted ha hs) h.acyclic
    | ok nodes => exact ⟨_, by rw [resolve, hf, hs]⟩
  · intro e h
    rw [resolve] at h
    cases hf : fault? registry.records host with
    | some e' =>
      simp only [hf, Except.error.injEq] at h
      exact reported_of_fault ha (h ▸ hf)
    | none =>
      -- where no record is at fault by itself, it is the cycle
      obtain ⟨hm, hu, hh⟩ := (no_fault_iff ha).mp hf
      cases hs : Order.sort (graph registry.records) with
      | ok nodes => simp [hf, hs] at h
      | error cycle =>
        simp only [hf, hs, Except.error.injEq] at h
        rw [← h]
        exact .cycle hm hu hh (cyclic_of_unsorted ha hs)

end Overlay.Registry
