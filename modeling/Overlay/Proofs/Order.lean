import Overlay.Order
import Mathlib.Data.List.Range
import Mathlib.Data.List.Sort
import Mathlib.Order.Bounds.Defs

/-! Sorting a graph. The counts of a `Progress` always speak about the requirements that are not
placed yet, so the ready nodes are the ones that may come next, and a step places the least of
them. -/
namespace Overlay.Order

variable {g : Graph}

/-- A node that may come next: it is not placed, and all it requires is. -/
def Available (g : Graph) (placed : List Nat) (j : Nat) : Prop :=
  j < g.length ∧ j ∉ placed ∧ ∀ k ∈ requires g j, k ∈ placed

/-- Every node comes as the least one available behind the nodes in front of it. -/
def LeastFirst (g : Graph) (order : List Nat) : Prop :=
  ∀ before i after, order = before ++ i :: after → IsLeast {j | Available g before j} i

theorem least_first_nil : LeastFirst g [] := by
  intro before i after h
  simp at h

/-- An order goes on with the least node that is available. -/
theorem least_first_snoc {order : List Nat} {i : Nat} (ho : LeastFirst g order)
    (hi : IsLeast {j | Available g order j} i) : LeastFirst g (order ++ [i]) := by
  intro before j after h
  -- either the place is that of the new node, or it lies within the old order
  rcases List.eq_nil_or_concat after with rfl | ⟨after', k, rfl⟩
  · obtain ⟨rfl, he⟩ := List.append_inj' h rfl
    obtain rfl : i = j := by simpa using he
    exact hi
  · have h' : order ++ [i] = (before ++ j :: after') ++ [k] := by simpa using h
    obtain ⟨he, _⟩ := List.append_inj' h' rfl
    exact ho before j after' he

/-- In such an order every node comes behind those that it requires. -/
theorem requires_mem_of_placed {order : List Nat} (ho : LeastFirst g order) {j k : Nat}
    (hj : j ∈ order) (hk : k ∈ requires g j) : k ∈ order := by
  obtain ⟨before, after, rfl⟩ := List.append_of_mem hj
  have hl := ho before j after rfl
  exact List.mem_append_left _ (hl.1.2.2 k hk)

/-- A node is a dependent of another one as often as it requires it. -/
theorem count_dependents (g : Graph) (i j : Nat) :
    (dependents g i).count j = (requires g j).count i := by
  -- counted node by node, `j` occurs only among the copies that it contributes itself
  have hsum (n : Nat) : ((List.range n).flatMap fun k =>
      List.replicate ((requires g k).count i) k).count j =
        if j < n then (requires g j).count i else 0 := by
    induction n with
    | zero => simp
    | succ n ih =>
      rw [List.range_succ, List.flatMap_append, List.count_append, ih]
      simp only [List.flatMap_cons, List.flatMap_nil, List.append_nil, List.count_replicate,
        beq_iff_eq]
      by_cases hj : j = n
      · subst hj
        simp
      · have hn : n ≠ j := fun h => hj h.symm
        simp only [hn, if_false, Nat.add_zero]
        split_ifs <;> first | rfl | omega
  rw [dependents, hsum]
  split_ifs with hj
  · rfl
  · have hr : requires g j = [] := by
      simp [requires, List.getElem?_eq_none (Nat.le_of_not_lt hj)]
    simp [hr]

theorem mem_add_ready {i j : Nat} {ready : List Nat} :
    j ∈ addReady i ready ↔ j = i ∨ j ∈ ready := by
  induction ready with
  | nil => simp [addReady]
  | cons k ks ih =>
    rw [addReady]
    split_ifs with hlt heq
    · simp
    · subst heq
      simp
    · simp only [List.mem_cons, ih]
      tauto

theorem add_ready_ascending {i : Nat} {ready : List Nat} (h : ready.Pairwise (· < ·)) :
    (addReady i ready).Pairwise (· < ·) := by
  induction ready with
  | nil => simp [addReady]
  | cons k ks ih =>
    obtain ⟨hk, hks⟩ := List.pairwise_cons.mp h
    rw [addReady]
    split_ifs with hlt heq
    · refine List.pairwise_cons.mpr ⟨?_, h⟩
      intro j hj
      rcases List.mem_cons.mp hj with rfl | hj
      · exact hlt
      · exact Nat.lt_trans hlt (hk j hj)
    · exact h
    · refine List.pairwise_cons.mpr ⟨?_, ih hks⟩
      intro j hj
      rcases mem_add_ready.mp hj with rfl | hj
      · omega
      · exact hk j hj

namespace Progress

theorem missing_of_release (p : Progress) (i j : Nat) (hi : i < p.missing.length) :
    (p.release i).missingOf j = if j = i then p.missingOf i - 1 else p.missingOf j := by
  simp only [release, missingOf, List.getElem?_set]
  by_cases hj : j = i
  · subst hj
    simp [hi]
  · have hn : i ≠ j := fun h => hj h.symm
    simp [hn, hj]

theorem length_release (p : Progress) (i : Nat) :
    (p.release i).missing.length = p.missing.length := by
  simp [release]

/-- A node gets ready by the release of its last requirement. -/
theorem ready_release (p : Progress) (i j : Nat) :
    j ∈ (p.release i).ready ↔ j ∈ p.ready ∨ (j = i ∧ p.missingOf i - 1 = 0) := by
  simp only [release]
  split_ifs with h
  · rw [mem_add_ready]
    tauto
  · tauto

/-- What releasing some nodes one after the other leads to, if none is released more often than
it waits. -/
structure Released (p : Progress) (ds : List Nat) (q : Progress) : Prop where
  length : q.missing.length = p.missing.length
  missing : ∀ j, q.missingOf j = p.missingOf j - ds.count j
  placed : q.placed = p.placed
  ready : ∀ j, j ∈ q.ready ↔ j ∈ p.ready ∨ (j ∈ ds ∧ p.missingOf j = ds.count j)
  ascending : p.ready.Pairwise (· < ·) → q.ready.Pairwise (· < ·)

/-- Releases one after the other come to what they are said to lead to. -/
theorem released_foldl (ds : List Nat) (p : Progress) (hl : ∀ d ∈ ds, d < p.missing.length)
    (hc : ∀ j, ds.count j ≤ p.missingOf j) : Released p ds (ds.foldl release p) := by
  -- on the list of released nodes; what is said of the counts has to hold for every node at once
  induction ds generalizing p with
  | nil => exact ⟨rfl, by simp, rfl, by simp, id⟩
  | cons d ds ih =>
    have hd : d < p.missing.length := hl d (by simp)
    have hm := fun j => missing_of_release p d j hd
    have hpos : 0 < p.missingOf d := by
      have h := hc d
      rw [List.count_cons_self] at h
      omega
    have hcount (j : Nat) : (d :: ds).count j = ds.count j + if j = d then 1 else 0 := by
      rw [List.count_cons]
      split_ifs <;> simp_all
    have hq : Released (p.release d) ds (ds.foldl release (p.release d)) := by
      apply ih
      · intro e he
        rw [length_release]
        exact hl e (by simp [he])
      · intro j
        have h := hc j
        rw [hcount] at h
        rw [hm]
        split_ifs at h ⊢ with hj
        · subst hj
          omega
        · omega
    refine ⟨hq.length.trans (length_release p d), ?_, hq.placed, ?_, ?_⟩
    · intro j
      rw [List.foldl_cons, hq.missing, hm, hcount]
      split_ifs with hj
      · subst hj
        omega
      · omega
    · intro j
      rw [List.foldl_cons, hq.ready, ready_release, hm, hcount, List.mem_cons]
      by_cases hj : j = d
      · subst hj
        have hmem : j ∈ ds ↔ 0 < ds.count j := List.count_pos_iff.symm
        simp only [true_and, true_or, if_true, hmem]
        -- `j` gets ready with its last release, be it this one or a later one
        constructor
        · rintro ((h | h) | ⟨_, h⟩)
          · exact Or.inl h
          · have := hc j
            rw [hcount, if_pos rfl] at this
            exact Or.inr (by omega)
          · exact Or.inr (by omega)
        · rintro (h | h)
          · exact Or.inl (Or.inl h)
          · by_cases h0 : ds.count j = 0
            · exact Or.inl (Or.inr (by omega))
            · exact Or.inr ⟨by omega, by omega⟩
      · simp only [hj, false_and, false_or, or_false, if_false, Nat.add_zero]
    · intro h
      apply hq.ascending
      simp only [release]
      split_ifs
      · exact add_ready_ascending h
      · exact h

/-- The counts tell the requirements that are still to come, and ready is who has none left. -/
structure Invariant (g : Graph) (p : Progress) : Prop where
  length : p.missing.length = g.length
  missing : ∀ j, p.missingOf j = (requires g j).countP (· ∉ p.placed)
  ready : ∀ j, j ∈ p.ready ↔ j < g.length ∧ j ∉ p.placed ∧ p.missingOf j = 0
  ascending : p.ready.Pairwise (· < ·)
  placed_nodup : p.placed.Nodup
  placed_lt : ∀ i ∈ p.placed, i < g.length
  least_first : LeastFirst g p.placed

/-- The nodes that are ready are those that may come next. -/
theorem Invariant.ready_iff {p : Progress} (h : Invariant g p) (j : Nat) :
    j ∈ p.ready ↔ Available g p.placed j := by
  have hz : p.missingOf j = 0 ↔ ∀ k ∈ requires g j, k ∈ p.placed := by
    simp [h.missing]
  rw [h.ready, hz, Available]

/-- At the start nothing is placed, and ready is who requires nothing. -/
theorem invariant_start (g : Graph) : Invariant g (start g) := by
  have hm (j : Nat) : (start g).missingOf j = (requires g j).length := by
    simp only [start, missingOf, requires, List.getElem?_map]
    cases g[j]? <;> rfl
  refine ⟨by simp [start], ?_, ?_, ?_, List.nodup_nil, by simp [start], least_first_nil⟩
  · intro j
    have ht : (requires g j).countP (fun k => decide (k ∉ (start g).placed)) =
        (requires g j).length := List.countP_eq_length.mpr (by simp [start])
    rw [hm, ht]
  · intro j
    rw [hm]
    simp [start]
  · exact List.Pairwise.filter _ List.pairwise_lt_range

theorem countP_snoc (xs placed : List Nat) (i : Nat) (hi : i ∉ placed) :
    xs.countP (· ∉ placed) = xs.countP (· ∉ placed ++ [i]) + xs.count i := by
  induction xs with
  | nil => rfl
  | cons x xs ih =>
    simp only [List.countP_cons, List.count_cons, ih]
    by_cases hx : x = i
    · subst hx
      simp [hi]
      omega
    · by_cases hp : x ∈ placed <;> simp [hx, hp]
      omega

namespace Invariant

variable {p : Progress} {i : Nat} {rest : List Nat}

/-- Placing a node settles the requirements on it and leaves the others to come. -/
theorem missing_split (h : Invariant g p) (hi : i ∉ p.placed) (j : Nat) : p.missingOf j =
    (requires g j).countP (· ∉ p.placed ++ [i]) + (dependents g i).count j := by
  rw [h.missing, count_dependents, countP_snoc _ _ _ hi]

theorem dependents_lt (h : Invariant g p) : ∀ j ∈ dependents g i, j < p.missing.length := by
  intro j hj
  simp only [dependents, List.mem_flatMap, List.mem_range, List.mem_replicate] at hj
  obtain ⟨k, hk, _, rfl⟩ := hj
  exact h.length ▸ hk

/-- The first ready node is the least one that may come next. -/
theorem isLeast_first (h : Invariant g p) (hr : p.ready = i :: rest) :
    IsLeast {j | Available g p.placed j} i := by
  have hasc := h.ascending
  rw [hr] at hasc
  obtain ⟨hrest, _⟩ := List.pairwise_cons.mp hasc
  refine ⟨(h.ready_iff i).mp (by simp [hr]), ?_⟩
  intro j hj
  have hready : j ∈ i :: rest := hr ▸ (h.ready_iff j).mpr hj
  rcases List.mem_cons.mp hready with rfl | hj
  · exact Nat.le_refl _
  · exact Nat.le_of_lt (hrest j hj)

/-- A step with a ready node releases what requires the first one. -/
theorem released_step (h : Invariant g p) (hr : p.ready = i :: rest) :
    Released ⟨p.missing, rest, p.placed ++ [i]⟩ (dependents g i) (p.step g) := by
  have hi := (h.isLeast_first hr).1
  have hlt : ∀ j ∈ dependents g i, j < p.missing.length := h.dependents_lt
  rw [step, hr]
  refine released_foldl (dependents g i) ⟨p.missing, rest, p.placed ++ [i]⟩ hlt ?_
  intro j
  have hsplit := h.missing_split hi.2.1 j
  change _ ≤ p.missingOf j
  omega

theorem missing_step (h : Invariant g p) (hr : p.ready = i :: rest) (j : Nat) :
    (p.step g).missingOf j = (requires g j).countP (· ∉ p.placed ++ [i]) := by
  have hsplit := h.missing_split (h.isLeast_first hr).1.2.1 j
  have hleft : (p.step g).missingOf j = p.missingOf j - (dependents g i).count j :=
    (h.released_step hr).missing j
  omega

/-- Behind a step those are ready that wait for nothing any more. -/
theorem ready_step (h : Invariant g p) (hr : p.ready = i :: rest) (j : Nat) :
    j ∈ (p.step g).ready ↔ j < g.length ∧ j ∉ p.placed ++ [i] ∧ (p.step g).missingOf j = 0 := by
  have hi := (h.isLeast_first hr).1
  have hasc := h.ascending
  rw [hr] at hasc
  obtain ⟨hrest, _⟩ := List.pairwise_cons.mp hasc
  have hsplit := h.missing_split hi.2.1 j
  have hready : j ∈ (p.step g).ready ↔
      j ∈ rest ∨ (j ∈ dependents g i ∧ p.missingOf j = (dependents g i).count j) :=
    (h.released_step hr).ready j
  have hmem : j ∈ p.ready ↔ j = i ∨ j ∈ rest := by rw [hr, List.mem_cons]
  have hdep : j ∈ dependents g i ↔ 0 < (dependents g i).count j := List.count_pos_iff.symm
  rw [hready, h.missing_step hr, List.mem_append, List.mem_singleton, not_or]
  constructor
  · rintro (hj | ⟨hj, he⟩)
    · -- a node that was ready before required nothing that is missing now
      obtain ⟨hl, hnp, hz⟩ := (h.ready j).mp (hmem.mpr (Or.inr hj))
      have hji : j ≠ i := fun he => Nat.lt_irrefl i (hrest i (he ▸ hj))
      exact ⟨hl, ⟨hnp, hji⟩, by omega⟩
    · -- what requires `i` is neither `i` itself nor placed, because `i` was not
      have hij : i ∈ requires g j := by
        rw [← List.count_pos_iff, ← count_dependents]
        exact hdep.mp hj
      have hnp : j ∉ p.placed := fun hp => hi.2.1 (requires_mem_of_placed h.least_first hp hij)
      have hji : j ≠ i := fun he => hi.2.1 (hi.2.2 i (he ▸ hij))
      exact ⟨h.length ▸ h.dependents_lt j hj, ⟨hnp, hji⟩, by omega⟩
  · rintro ⟨hl, ⟨hnp, hji⟩, hz⟩
    by_cases h0 : (dependents g i).count j = 0
    · have hj := (h.ready j).mpr ⟨hl, hnp, by omega⟩
      exact Or.inl ((hmem.mp hj).resolve_left hji)
    · exact Or.inr ⟨hdep.mpr (by omega), by omega⟩

end Invariant

/-- A step places the least ready node and keeps the counts right. -/
theorem invariant_step {p : Progress} (h : Invariant g p) : Invariant g (p.step g) := by
  cases hr : p.ready with
  | nil =>
    have hstep : p.step g = p := by rw [step, hr]
    rwa [hstep]
  | cons i rest =>
    -- the least of the ready nodes is placed, and those that depend on it are released
    have hleast := h.isLeast_first hr
    have hq := h.released_step hr
    have hplaced : (p.step g).placed = p.placed ++ [i] := hq.placed
    have hasc := h.ascending
    rw [hr] at hasc
    constructor
    · exact hq.length.trans h.length
    · intro j
      rw [h.missing_step hr, hplaced]
    · intro j
      rw [h.ready_step hr, hplaced]
    · exact hq.ascending (List.pairwise_cons.mp hasc).2
    · rw [hplaced]
      exact h.placed_nodup.append (List.nodup_singleton i) (by simpa using hleast.1.2.1)
    · rw [hplaced]
      intro j hj
      rcases List.mem_append.mp hj with hj | hj
      · exact h.placed_lt j hj
      · exact List.mem_singleton.mp hj ▸ hleast.1.1
    · rw [hplaced]
      exact least_first_snoc h.least_first hleast

/-- The invariant is kept by any number of steps. -/
theorem invariant_steps {p : Progress} (h : Invariant g p) (n : Nat) :
    Invariant g (steps g n p) := by
  induction n generalizing p with
  | zero => exact h
  | succ n ih => exact ih (invariant_step h)

theorem invariant_final (g : Graph) : Invariant g (final g) :=
  invariant_steps (invariant_start g) _

theorem steps_of_stuck {p : Progress} (hr : p.ready = []) (n : Nat) : steps g n p = p := by
  have hstep : p.step g = p := by rw [step, hr]
  induction n with
  | zero => rfl
  | succ n ih => rw [steps, hstep, ih]

/-- Some steps place a node each, unless no node is ready in the end. -/
theorem length_steps {p : Progress} (h : Invariant g p) (n : Nat) :
    (steps g n p).ready = [] ∨ (steps g n p).placed.length = p.placed.length + n := by
  induction n generalizing p with
  | zero => exact Or.inr rfl
  | succ n ih =>
    cases hr : p.ready with
    | nil =>
      rw [steps_of_stuck hr]
      exact Or.inl hr
    | cons i rest =>
      have hplaced : (p.step g).placed = p.placed ++ [i] := (h.released_step hr).placed
      refine (ih (invariant_step h)).imp_right fun hlength => ?_
      rw [hplaced, List.length_append, List.length_singleton] at hlength
      rw [steps, hlength]
      omega

end Progress

/-- The placed nodes all differ and are nodes of the graph. -/
theorem placed_subperm (g : Graph) : (Progress.final g).placed.Subperm (List.range g.length) := by
  have hi := Progress.invariant_final g
  exact List.subperm_of_subset hi.placed_nodup fun i hm => List.mem_range.mpr (hi.placed_lt i hm)

/-- An order that is found has every node once, each as the least available one. -/
theorem sort_eq_ok {order : List Nat} (h : sort g = .ok order) :
    order.Perm (List.range g.length) ∧ LeastFirst g order := by
  rw [sort] at h
  split_ifs at h with hl
  obtain rfl : (Progress.final g).placed = order := by simpa using h
  refine ⟨?_, (Progress.invariant_final g).least_first⟩
  -- being as many as the graph has, the placed nodes are all of them
  exact (placed_subperm g).perm_of_length_le (by simp [hl])

/-- Without an order some nodes are left, each of which requires a node that is left, too. -/
theorem sort_eq_error {cycle : List Nat} (h : sort g = .error cycle) :
    (∃ i < g.length, i ∉ (Progress.final g).placed) ∧
      ∀ i < g.length, i ∉ (Progress.final g).placed →
        ∃ k ∈ requires g i, k ∉ (Progress.final g).placed := by
  rw [sort] at h
  split_ifs at h with hl
  have hi := Progress.invariant_final g
  have hstuck : (Progress.final g).ready = [] := by
    refine (Progress.length_steps (Progress.invariant_start g) g.length).resolve_right fun he => ?_
    exact hl (he.trans (Nat.zero_add _))
  constructor
  · by_contra! hall
    have hsub : (List.range g.length).Subperm (Progress.final g).placed :=
      List.subperm_of_subset List.nodup_range fun i hm => hall i (List.mem_range.mp hm)
    have hlength : (Progress.final g).placed.length = (List.range g.length).length :=
      Nat.le_antisymm (placed_subperm g).length_le hsub.length_le
    exact hl (hlength.trans List.length_range)
  · intro i hlt hnot
    by_contra! hall
    -- all it requires is placed, so the node would be ready
    have hready : i ∈ (Progress.final g).ready := (hi.ready_iff i).mpr ⟨hlt, hnot, hall⟩
    rw [hstuck] at hready
    exact List.not_mem_nil hready

end Overlay.Order
