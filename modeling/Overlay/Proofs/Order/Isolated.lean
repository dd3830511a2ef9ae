import Overlay.Proofs.Order.Cycle

namespace Overlay

/-- Where the thing at a place stands after another thing has been put in at place `n`. -/
def shifted (n i : Nat) : Nat := if i < n then i else i + 1

variable {n i j : Nat}

theorem shifted_of_lt (h : i < n) : shifted n i = i := if_pos h

theorem shifted_of_le (h : n ≤ i) : shifted n i = i + 1 := if_neg (Nat.not_lt.mpr h)

theorem shifted_lt_iff : shifted n i < shifted n j ↔ i < j := by
  simp only [shifted]
  split_ifs <;> omega

theorem shifted_le_iff : shifted n i ≤ shifted n j ↔ i ≤ j := by
  rw [← Nat.not_lt, shifted_lt_iff, Nat.not_lt]

theorem shifted_min (i j : Nat) : shifted n (min i j) = min (shifted n i) (shifted n j) := by
  rcases Nat.le_total i j with hij | hij
  · rw [Nat.min_eq_left hij, Nat.min_eq_left (shifted_le_iff.mpr hij)]
  · rw [Nat.min_eq_right hij, Nat.min_eq_right (shifted_le_iff.mpr hij)]

theorem shifted_injective (n : Nat) : Function.Injective (shifted n) := fun _ _ h =>
  Nat.le_antisymm (shifted_le_iff.mp h.le) (shifted_le_iff.mp h.ge)

theorem shifted_ne (n i : Nat) : shifted n i ≠ n := by
  simp only [shifted]
  split_ifs <;> omega

theorem exists_shifted (h : i ≠ n) : ∃ j, shifted n j = i := by
  rcases Nat.lt_or_gt_of_ne h with hlt | hgt
  · exact ⟨i, shifted_of_lt hlt⟩
  · refine ⟨i - 1, ?_⟩
    rw [shifted_of_le (by omega)]
    omega

theorem exists_map_shifted {is : List Nat} (h : ∀ i ∈ is, i ≠ n) :
    ∃ js : List Nat, js.map (shifted n) = is := by
  induction is with
  | nil => exact ⟨[], rfl⟩
  | cons i is ih =>
    obtain ⟨hi, his⟩ := List.forall_mem_cons.mp h
    obtain ⟨j, rfl⟩ := exists_shifted hi
    obtain ⟨js, rfl⟩ := ih his
    exact ⟨j :: js, rfl⟩

theorem mem_map_shifted {is : List Nat} : shifted n i ∈ is.map (shifted n) ↔ i ∈ is :=
  List.mem_map_of_injective (shifted_injective n)

/-- Apart from the place itself, nothing stands at it. -/
theorem shifted_mem_iff {is js : List Nat} (h : is.filter (· ≠ n) = js.map (shifted n)) :
    shifted n i ∈ is ↔ i ∈ js := by
  have hmem : shifted n i ∈ js.map (shifted n) ↔ i ∈ js := mem_map_shifted
  rw [← hmem, ← h, List.mem_filter]
  simp [shifted_ne]

namespace Order

variable {g g' : Graph}

/-- Two orders of least nodes that both cannot go on are the same. -/
theorem least_first_unique {p q : List Nat} (hp : LeastFirst g p) (hq : LeastFirst g q)
    (hps : ∀ j, ¬ Available g p j) (hqs : ∀ j, ¬ Available g q j) : p = q := by
  have htails (rest rest' front : List Nat) (hr : p = front ++ rest) (hr' : q = front ++ rest') :
      rest = rest' := by
    -- behind a common front, both go on with the least node available, or both stop
    induction rest generalizing front rest' with
    | nil =>
      cases rest' with
      | nil => rfl
      | cons j rest' =>
        rw [List.append_nil] at hr
        exact absurd (hq front j rest' hr').1 (hr ▸ hps j)
    | cons i rest ih =>
      cases rest' with
      | nil =>
        rw [List.append_nil] at hr'
        exact absurd (hp front i rest hr).1 (hr' ▸ hqs i)
      | cons j rest' =>
        have hi := hp front i rest hr
        have hj := hq front j rest' hr'
        obtain rfl : i = j := Nat.le_antisymm (hi.2 hj.1) (hj.2 hi.1)
        rw [ih rest' (front ++ [i]) (by simp [hr]) (by simp [hr'])]
  exact htails p q [] rfl rfl

theorem not_available_final (g : Graph) (j : Nat) : ¬ Available g (Progress.final g).placed j := by
  intro hj
  have hi := Progress.invariant_final g
  rcases Progress.length_steps (Progress.invariant_start g) g.length with hstuck | hall
  · have hready : j ∈ (Progress.final g).ready := (hi.ready_iff j).mpr hj
    have hnone : (Progress.final g).ready = [] := hstuck
    rw [hnone] at hready
    exact List.not_mem_nil hready
  · have hlength : (Progress.final g).placed.length = g.length := hall.trans (Nat.zero_add _)
    have hperm := (placed_subperm g).perm_of_length_le (by simp [hlength])
    exact hj.2.1 (hperm.mem_iff.mpr (List.mem_range.mpr hj.1))

/-- A graph and the same graph with a node put in at place `n`, which has to do with no other. -/
structure Inserted (g g' : Graph) (n : Nat) : Prop where
  le : n ≤ g.length
  length : g'.length = g.length + 1
  isolated : requires g' n = []
  kept : ∀ i, requires g' (shifted n i) = (requires g i).map (shifted n)

namespace Inserted

variable (h : Inserted g g' n)
include h

theorem lt_length_iff : shifted n i < g'.length ↔ i < g.length := by
  have hle := h.le
  rw [h.length, shifted]
  split_ifs <;> omega

/-- Another node may come next in the one graph when it may in the other. -/
theorem available_iff {placed placed' : List Nat}
    (hp : ∀ i, shifted n i ∈ placed' ↔ i ∈ placed) :
    Available g' placed' (shifted n j) ↔ Available g placed j := by
  rw [Available, Available, h.lt_length_iff, hp, h.kept, List.forall_mem_map]
  simp only [hp]

/-- An order of the larger graph is one of the smaller graph when the new node is left out. -/
theorem least_first {p p' : List Nat} (hp : LeastFirst g' p')
    (hs : p'.filter (· ≠ n) = p.map (shifted n)) : LeastFirst g p := by
  intro before i after he
  have hfilter : p'.filter (· ≠ n) =
      before.map (shifted n) ++ shifted n i :: after.map (shifted n) := by
    rw [hs, he, List.map_append, List.map_cons]
  obtain ⟨front, rest, rfl, hfront, hrest⟩ := List.filter_eq_append_iff.mp hfilter
  obtain ⟨skipped, rest, rfl, hskipped, -, -⟩ := List.filter_eq_cons_iff.mp hrest
  -- what is skipped in front of the node is the new one
  have hbefore : (front ++ skipped).filter (· ≠ n) = before.map (shifted n) := by
    rw [List.filter_append, hfront, List.filter_eq_nil_iff.mpr hskipped, List.append_nil]
  have hmem (k : Nat) : shifted n k ∈ front ++ skipped ↔ k ∈ before := shifted_mem_iff hbefore
  have hleast := hp (front ++ skipped) (shifted n i) rest (by simp)
  refine ⟨(h.available_iff hmem).mp hleast.1, ?_⟩
  intro j hj
  exact shifted_le_iff.mp (hleast.2 ((h.available_iff hmem).mpr hj))

/-- Apart from the node that was put in, the nodes are placed in the same order. -/
theorem placed_final : (Progress.final g').placed.filter (· ≠ n) =
    (Progress.final g).placed.map (shifted n) := by
  obtain ⟨p, hp⟩ : ∃ p : List Nat, p.map (shifted n) = (Progress.final g').placed.filter (· ≠ n) :=
    exists_map_shifted fun i hi => by simpa using (List.mem_filter.mp hi).2
  have hleast := h.least_first (Progress.invariant_final g').least_first hp.symm
  have hmem (k : Nat) : shifted n k ∈ (Progress.final g').placed ↔ k ∈ p :=
    shifted_mem_iff hp.symm
  have hstuck (j : Nat) : ¬ Available g p j := fun hj =>
    not_available_final g' _ ((h.available_iff hmem).mpr hj)
  rw [← hp, least_first_unique hleast (Progress.invariant_final g).least_first hstuck
    (not_available_final g)]

/-- Another node is placed in the one graph exactly if it is in the other. -/
theorem shifted_mem_final : shifted n i ∈ (Progress.final g').placed ↔
    i ∈ (Progress.final g).placed := shifted_mem_iff h.placed_final

/-- Nothing keeps the new node from being placed. -/
theorem mem_final : n ∈ (Progress.final g').placed := by
  by_contra hn
  have hlt : n < g'.length := by
    have := h.le
    have := h.length
    omega
  refine not_available_final g' n ⟨hlt, hn, ?_⟩
  rw [h.isolated]
  exact List.forall_mem_nil _

theorem length_final : (Progress.final g').placed.length =
    (Progress.final g).placed.length + 1 := by
  have hnodup := (Progress.invariant_final g').placed_nodup
  have herase : (Progress.final g').placed.erase n =
      (Progress.final g').placed.filter (· ≠ n) := by
    rw [hnodup.erase_eq_filter]
    exact List.filter_congr fun i _ => by rw [Bool.eq_iff_iff, bne_iff_ne, decide_eq_true_iff]
  have hlength := List.length_erase_of_mem h.mem_final
  have hpos := List.length_pos_of_mem h.mem_final
  rw [herase, h.placed_final, List.length_map] at hlength
  omega

theorem waits_final : (Progress.final g').waits (shifted n i) = (Progress.final g).waits i := by
  rw [Bool.eq_iff_iff, waits_final_iff, waits_final_iff, h.kept]
  simp only [List.mem_map, exists_exists_and_eq_and, h.shifted_mem_final]

theorem not_waits_final : (Progress.final g').waits n = false := by
  rw [Bool.eq_false_iff, Ne, waits_final_iff, h.isolated]
  simp

end Inserted

theorem least_map (is : List Nat) :
    least? (is.map (shifted n)) = (least? is).map (shifted n) := by
  induction is with
  | nil => rfl
  | cons i is ih =>
    rw [List.map_cons, least?, least?, ih]
    cases least? is with
    | none => rfl
    | some j => exact congrArg some (shifted_min i j).symm

theorem dropWhile_map (is : List Nat) (j : Nat) :
    (is.map (shifted n)).dropWhile (· ≠ shifted n j) =
      (is.dropWhile (· ≠ j)).map (shifted n) := by
  rw [List.dropWhile_map]
  simp [Function.comp_def, (shifted_injective n).eq_iff]

theorem takeWhile_map (is : List Nat) (j : Nat) :
    (is.map (shifted n)).takeWhile (· ≠ shifted n j) =
      (is.takeWhile (· ≠ j)).map (shifted n) := by
  rw [List.takeWhile_map]
  simp [Function.comp_def, (shifted_injective n).eq_iff]

/-- A cycle is closed at its least node, which stays the least when all are shifted. -/
theorem closeCycle_map (cycle : List Nat) :
    closeCycle (cycle.map (shifted n)) = (closeCycle cycle).map (shifted n) := by
  rw [closeCycle, closeCycle, least_map]
  cases least? cycle with
  | none => rfl
  | some i =>
    simp only [Option.map_some, dropWhile_map, takeWhile_map, List.map_append, List.map_cons,
      List.map_nil]

/-- A chase that has found its cycle does not need more fuel. -/
theorem chase_succ {waits : Nat → Bool} {fuel : Nat} {way : List Nat}
    (hc : chase g waits fuel way i ≠ []) :
    chase g waits (fuel + 1) way i = chase g waits fuel way i := by
  induction fuel generalizing way i with
  | zero => exact absurd rfl hc
  | succ fuel ih =>
    rw [chase] at hc
    rw [chase, chase]
    cases hl : least? ((requires g i).filter waits) with
    | none => rfl
    | some j =>
      simp only [hl] at hc
      dsimp only
      split_ifs at hc ⊢
      · rfl
      · exact ih hc

/-- The chase never comes to the new node, so it goes the same way as without it. -/
theorem Inserted.chase_eq (h : Inserted g g' n) {waits waits' : Nat → Bool}
    (hw : ∀ i, waits' (shifted n i) = waits i) (fuel : Nat) (way : List Nat) (i : Nat) :
    chase g' waits' fuel (way.map (shifted n)) (shifted n i) =
      (chase g waits fuel way i).map (shifted n) := by
  induction fuel generalizing way i with
  | zero => rfl
  | succ fuel ih =>
    have hnext : least? ((requires g' (shifted n i)).filter waits') =
        (least? ((requires g i).filter waits)).map (shifted n) := by
      rw [h.kept, List.filter_map, ← least_map]
      simp only [Function.comp_def, hw]
    rw [chase, chase, hnext]
    cases least? ((requires g i).filter waits) with
    | none => rfl
    | some j =>
      have hway : way.map (shifted n) ++ [shifted n i] = (way ++ [i]).map (shifted n) := by simp
      have hmet : ((way ++ [i]).map (shifted n)).contains (shifted n j) =
          (way ++ [i]).contains j := by
        rw [Bool.eq_iff_iff, List.contains_iff_mem, List.contains_iff_mem, mem_map_shifted]
      simp only [Option.map_some, hway, hmet, dropWhile_map, ih]
      split_ifs <;> rfl

/-- The chase for a cycle starts at the same node. -/
theorem Inserted.find_waits (h : Inserted g g' n) {first : Nat}
    (hf : (List.range g.length).find? (Progress.final g).waits = some first) :
    (List.range g'.length).find? (Progress.final g').waits = some (shifted n first) := by
  obtain ⟨hwaits, hmem, hbefore⟩ := List.find?_range_eq_some.mp hf
  refine List.find?_range_eq_some.mpr ⟨h.waits_final.trans hwaits, ?_, ?_⟩
  · exact List.mem_range.mpr (h.lt_length_iff.mpr (List.mem_range.mp hmem))
  · intro j hj
    by_cases hn : j = n
    · rw [hn, h.not_waits_final]
      rfl
    · obtain ⟨k, rfl⟩ := exists_shifted hn
      rw [h.waits_final]
      exact hbefore k (shifted_lt_iff.mp hj)

/-- The order with the new node is the order without it, and the new node somewhere in it. -/
theorem Inserted.sort_ok (h : Inserted g g' n) {order : List Nat} (hs : sort g = .ok order) :
    ∃ order', sort g' = .ok order' ∧ order'.filter (· ≠ n) = order.map (shifted n) := by
  rw [sort] at hs
  split_ifs at hs with hl
  obtain rfl := Except.ok.inj hs
  have hl' : (Progress.final g').placed.length = g'.length := by
    rw [h.length_final, h.length, hl]
  refine ⟨(Progress.final g').placed, ?_, h.placed_final⟩
  rw [sort]
  exact if_pos hl'

/-- If there is no order, the cycle that is found is the same one. -/
theorem Inserted.sort_error (h : Inserted g g' n) (hg : ∀ i, ∀ k ∈ requires g i, k < g.length)
    {cycle : List Nat} (hs : sort g = .error cycle) :
    sort g' = .error (cycle.map (shifted n)) := by
  obtain ⟨first, j, rest, hfirst, hchase, -, hfound⟩ := chase_of_sort hg hs
  rw [sort] at hs
  split_ifs at hs with hl
  have hl' : ¬ (Progress.final g').placed.length = g'.length := by
    rw [h.length_final, h.length]
    omega
  rw [sort]
  refine (if_neg hl').trans ?_
  rw [cycleOf, h.find_waits hfirst, h.length]
  have hfuel : chase g (Progress.final g).waits (g.length + 1) [] first =
      chase g (Progress.final g).waits g.length [] first :=
    chase_succ (hchase ▸ List.cons_ne_nil j rest)
  have hlonger := h.chase_eq (fun _ => h.waits_final) (g.length + 1) [] first
  rw [hfuel, hchase] at hlonger
  rw [hfound, ← closeCycle_map, ← hlonger]
  rfl

end Order

end Overlay
