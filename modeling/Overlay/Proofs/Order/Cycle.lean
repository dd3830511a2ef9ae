import Overlay.Proofs.Order
import Mathlib.Data.List.Chain
import Mathlib.Data.List.TakeWhile

namespace Overlay.Order

def Requires (g : Graph) (i j : Nat) : Prop := j ∈ requires g i

/-- A way along requirements that leads from a node back to it and meets no node twice. -/
structure Cycle (g : Graph) (i : Nat) (rest : List Nat) : Prop where
  chain : List.IsChain (Requires g) (i :: rest ++ [i])
  nodup : (i :: rest).Nodup

variable {g : Graph}

theorem Requires.lt_length {i j : Nat} (h : Requires g i j) : i < g.length := by
  by_contra hge
  simp [Requires, requires, List.getElem?_eq_none (Nat.le_of_not_lt hge)] at h

/-- A cycle only leads through nodes of the graph. -/
theorem Cycle.lt_length {i k : Nat} {rest : List Nat} (h : Cycle g i rest)
    (hk : k ∈ i :: rest) : k < g.length := by
  obtain ⟨before, after, hs⟩ := List.append_of_mem hk
  obtain ⟨j, more, hj⟩ : ∃ j more, after ++ [i] = j :: more :=
    List.exists_cons_of_ne_nil (by simp)
  have hchain := h.chain
  rw [hs, List.append_assoc, List.cons_append, hj] at hchain
  exact (List.isChain_append_cons_cons.mp hchain).2.1.lt_length

theorem least_of_nodes {is : List Nat} (h : is ≠ []) :
    ∃ m ∈ is, least? is = some m ∧ ∀ i ∈ is, m ≤ i := by
  induction is with
  | nil => exact absurd rfl h
  | cons i is ih =>
    by_cases hnil : is = []
    · subst hnil
      exact ⟨i, List.mem_cons_self, rfl, by simp⟩
    · obtain ⟨m, hm, hl, hle⟩ := ih hnil
      refine ⟨min i m, ?_, by rw [least?, hl], ?_⟩
      · rcases Nat.le_total i m with h | h
        · simp [Nat.min_eq_left h]
        · simp [Nat.min_eq_right h, hm]
      · intro j hj
        rcases List.mem_cons.mp hj with rfl | hj
        · exact Nat.min_le_left _ _
        · exact (Nat.min_le_right _ _).trans (hle j hj)

/-- A list is cut where a node first stands in it. -/
theorem cut_at {is : List Nat} {j : Nat} (h : j ∈ is) : ∃ before after,
    is = before ++ j :: after ∧ is.takeWhile (· ≠ j) = before ∧
      is.dropWhile (· ≠ j) = j :: after := by
  obtain ⟨before, after, rfl, hb⟩ := List.eq_append_cons_of_mem h
  have hother : ∀ i ∈ before, decide (i ≠ j) = true := fun i hi =>
    decide_eq_true fun he => hb (he ▸ hi)
  refine ⟨before, after, rfl, ?_, ?_⟩
  · rw [List.takeWhile_append_of_pos hother]
    simp
  · rw [List.dropWhile_append_of_pos hother]
    simp

/-- The chase ends with a cycle if each node that waits requires one that waits. -/
theorem cycle_of_chase {waits : Nat → Bool}
    (hw : ∀ i, waits i = true → i < g.length ∧ ∃ k ∈ requires g i, waits k = true)
    {fuel : Nat} {way : List Nat} {i : Nat} (hf : g.length ≤ fuel + way.length)
    (ha : ∀ k ∈ way ++ [i], waits k = true) (hn : (way ++ [i]).Nodup)
    (hc : List.IsChain (Requires g) (way ++ [i])) :
    ∃ j rest, chase g waits fuel way i = j :: rest ∧ Cycle g j rest := by
  -- on the fuel, of which there is as much as there are nodes off the way
  induction fuel generalizing way i with
  | zero =>
    have hsub : (way ++ [i]).Subperm (List.range g.length) :=
      List.subperm_of_subset hn fun k hk => List.mem_range.mpr (hw k (ha k hk)).1
    have hlength := hsub.length_le
    rw [List.length_append, List.length_singleton, List.length_range] at hlength
    omega
  | succ fuel ih =>
    obtain ⟨-, k, hk, hkw⟩ := hw i (ha i (by simp))
    have hnext : (requires g i).filter waits ≠ [] :=
      List.ne_nil_of_mem (List.mem_filter.mpr ⟨hk, hkw⟩)
    obtain ⟨j, hj, hl, -⟩ := least_of_nodes hnext
    obtain ⟨hreq, hjw⟩ := List.mem_filter.mp hj
    have hfurther : List.IsChain (Requires g) (way ++ [i] ++ [j]) := by
      rw [List.append_assoc]
      exact List.isChain_append_cons_cons.mpr ⟨hc, hreq, .singleton j⟩
    rw [chase, hl]
    dsimp only
    by_cases hmet : j ∈ way ++ [i]
    · rw [if_pos (List.contains_iff_mem.mpr hmet)]
      obtain ⟨before, after, hsplit, -, hdrop⟩ := cut_at hmet
      refine ⟨j, after, hdrop, ?_, ?_⟩
      · rw [hsplit, List.append_assoc] at hfurther
        exact hfurther.right_of_append
      · rw [hsplit] at hn
        exact hn.of_append_right
    · rw [if_neg (mt List.contains_iff_mem.mp hmet)]
      refine ih ?_ ?_ ?_ hfurther
      · rw [List.length_append, List.length_singleton]
        omega
      · intro k hk
        rcases List.mem_append.mp hk with hk | hk
        · exact ha k hk
        · exact List.mem_singleton.mp hk ▸ hjw
      · exact hn.append (List.nodup_singleton j) (List.disjoint_singleton.mpr hmet)

/-- A cycle may be entered at any of its nodes. -/
theorem Cycle.turn {i m : Nat} {rest before after : List Nat} (h : Cycle g i rest)
    (hs : i :: rest = before ++ m :: after) : Cycle g m (after ++ before) := by
  have hchain := h.chain
  have hnodup := h.nodup
  rw [hs] at hchain hnodup
  refine ⟨?_, ?_⟩
  · cases before with
    | nil =>
      obtain ⟨rfl, -⟩ := List.cons.inj hs
      simpa using hchain
    | cons b before =>
      -- the way is cut at both nodes and put together the other way round
      obtain ⟨rfl, -⟩ := List.cons.inj hs
      have hchain : List.IsChain (Requires g) (i :: (before ++ m :: (after ++ [i]))) := by
        simpa using hchain
      obtain ⟨hfirst, hsecond⟩ := List.isChain_cons_split.mp hchain
      have hjoined := List.isChain_cons_split.mpr ⟨hsecond, hfirst⟩
      simpa using hjoined
  · have hperm : (m :: after ++ before).Perm (before ++ m :: after) := List.perm_append_comm
    exact hperm.nodup_iff.mpr hnodup

/-- The closed cycle starts and ends with the least of its nodes. -/
theorem cycle_of_close {i : Nat} {rest : List Nat} (h : Cycle g i rest) :
    ∃ m others, closeCycle (i :: rest) = m :: others ++ [m] ∧ Cycle g m others ∧
      ∀ k ∈ others, m < k := by
  obtain ⟨m, hm, hl, hle⟩ := least_of_nodes (List.cons_ne_nil i rest)
  obtain ⟨before, after, hsplit, htake, hdrop⟩ := cut_at hm
  have hturned := h.turn hsplit
  refine ⟨m, after ++ before, ?_, hturned, ?_⟩
  · rw [closeCycle, hl]
    dsimp only
    rw [htake, hdrop, List.cons_append]
  · intro k hk
    have hmem : k ∈ i :: rest := by
      rw [hsplit]
      rcases List.mem_append.mp hk with hk | hk <;> simp [hk]
    have hne : m ≠ k := fun he => (List.nodup_cons.mp hturned.nodup).1 (he ▸ hk)
    exact lt_of_le_of_ne (hle k hmem) hne

/-- What waits in the end requires a node that has not been placed. -/
theorem waits_final_iff (i : Nat) : (Progress.final g).waits i = true ↔
    ∃ k ∈ requires g i, k ∉ (Progress.final g).placed := by
  rw [Progress.waits, decide_eq_true_eq, (Progress.invariant_final g).missing, List.countP_pos_iff]
  simp only [decide_eq_true_eq]

/-- Without an order the chase for a cycle finds one. -/
theorem chase_of_sort (hg : ∀ i, ∀ k ∈ requires g i, k < g.length) {found : List Nat}
    (h : sort g = .error found) : ∃ first j rest,
      (List.range g.length).find? (Progress.final g).waits = some first ∧
      chase g (Progress.final g).waits g.length [] first = j :: rest ∧ Cycle g j rest ∧
      found = closeCycle (j :: rest) := by
  obtain ⟨⟨i, hi, hnot⟩, hleft⟩ := sort_eq_error h
  have hwaits : ∀ i < g.length, i ∉ (Progress.final g).placed →
      (Progress.final g).waits i = true :=
    fun i hi hnot => (waits_final_iff i).mpr (hleft i hi hnot)
  -- a node that waits does so for another one that waits
  have hw : ∀ i, (Progress.final g).waits i = true →
      i < g.length ∧ ∃ k ∈ requires g i, (Progress.final g).waits k = true := by
    intro i hi
    obtain ⟨k, hk, hkn⟩ := (waits_final_iff i).mp hi
    exact ⟨Requires.lt_length hk, k, hk, hwaits k (hg i k hk) hkn⟩
  obtain ⟨first, hfirst⟩ : ∃ first, (List.range g.length).find? (Progress.final g).waits =
      some first := by
    rw [← Option.isSome_iff_exists, List.find?_isSome]
    exact ⟨i, List.mem_range.mpr hi, hwaits i hi hnot⟩
  have hstart : (Progress.final g).waits first = true := List.find?_some hfirst
  obtain ⟨j, rest, hchase, hcycle⟩ :
      ∃ j rest, chase g (Progress.final g).waits g.length [] first = j :: rest ∧ Cycle g j rest :=
    cycle_of_chase hw (Nat.le_add_right _ _) (by simpa using hstart)
      (List.nodup_singleton first) (.singleton first)
  refine ⟨first, j, rest, hfirst, hchase, hcycle, ?_⟩
  rw [sort] at h
  split_ifs at h
  rw [← Except.error.inj h, cycleOf, hfirst]
  exact congrArg closeCycle hchase

/-- A graph that requires nothing but its own nodes has an order, or a cycle is found in it. -/
theorem cycle_of_sort (hg : ∀ i, ∀ k ∈ requires g i, k < g.length) {found : List Nat}
    (h : sort g = .error found) : ∃ i rest, found = i :: rest ++ [i] ∧ Cycle g i rest ∧
      ∀ k ∈ rest, i < k := by
  obtain ⟨_, j, rest, -, -, hcycle, rfl⟩ := chase_of_sort hg h
  exact cycle_of_close hcycle

end Overlay.Order
