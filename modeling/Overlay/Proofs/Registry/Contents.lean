import Overlay.Proofs.Name
import Overlay.Proofs.Registry.Scheduling

namespace Overlay.Registry
open scoped List

def lost (x : Record) : String × Nat × Option String := (x.source, x.index, some x.identity)

/-- The registry and the errors in which some insertions result. -/
structure Accounted (inserted : List Record) (registry : Registry) (errors : List FragmentError) :
    Prop where
  /-- An identity is held by the earliest input that claims it. -/
  find_iff : ∀ identity x, registry.find? identity = some x ↔
    x ∈ inserted ∧ keyOf x = nameKey identity ∧
      ∀ y ∈ inserted, keyOf y = nameKey identity → x.index ≤ y.index
  find_none_iff : ∀ identity, registry.find? identity = none ↔
    ∀ y ∈ inserted, keyOf y ≠ nameKey identity
  ascending : Ascending registry.records
  /-- A record is held, or it is reported in exactly one error. -/
  settled : ∀ x ∈ inserted,
    (x ∈ registry.records ∧ (errors.map blamed).count (lost x) = 0) ∨
      (x ∉ registry.records ∧ (errors.map blamed).count (lost x) = 1)
  /-- Nothing else is reported. -/
  reported : ∀ e ∈ errors, ∃ x ∈ inserted, blamed e = lost x

/-- The insertions keep every record: as one that is held or as the loser of a conflict. -/
theorem losers_held_perm {xs : List Record} (hd : (xs.map Record.index).Nodup) :
    ∃ losers, (empty.insertAll xs).2.map blamed = losers.map lost ∧
      losers ++ (empty.insertAll xs).1.records ~ xs := by
  obtain ⟨conflicts, he, hp, -⟩ := insertAll_conflicts empty xs (by simpa [empty] using hd)
  refine ⟨conflicts.map Conflict.loser, ?_, by simpa [empty] using hp⟩
  rw [he, List.map_map, List.map_map]
  rfl

/-- Only what was put in is held. -/
theorem mem_of_held {xs : List Record} (hd : (xs.map Record.index).Nodup) {x : Record}
    (hx : x ∈ (empty.insertAll xs).1.records) : x ∈ xs := by
  obtain ⟨losers, -, hp⟩ := losers_held_perm hd
  exact hp.mem_iff.mp (List.mem_append_right _ hx)

/-- A record is held exactly if it is the earliest input among those with its key. -/
theorem held_iff {xs : List Record} (hd : (xs.map Record.index).Nodup) {x : Record} :
    x ∈ (empty.insertAll xs).1.records ↔
      x ∈ xs ∧ ∀ y ∈ xs, keyOf y = keyOf x → x.index ≤ y.index := by
  constructor
  · intro hx
    exact ⟨mem_of_held hd hx, fun y hy hk => index_le_of_held hd hx hy hk⟩
  · rintro ⟨hx, hleast⟩
    -- the key of the record is held by some record, which comes no later than this one
    have hkey : keyOf x ∈ (empty.insertAll xs).1.records.map keyOf :=
      mem_keys_insertAll.mpr (Or.inl (List.mem_map_of_mem hx))
    obtain ⟨y, hy, hk⟩ := List.mem_map.mp hkey
    have hyx : y.index ≤ x.index := index_le_of_held hd hy hx hk.symm
    have hxy : x.index ≤ y.index := hleast y (mem_of_held hd hy) hk
    have heq : y = x :=
      List.inj_on_of_nodup_map hd (mem_of_held hd hy) hx (Nat.le_antisymm hyx hxy)
    exact heq ▸ hy

/-- What is held in the end does not depend on the order of the insertions. -/
theorem insertAll_perm {xs ys : List Record} (hd : (xs.map Record.index).Nodup) (h : xs ~ ys) :
    (empty.insertAll xs).1 = (empty.insertAll ys).1 := by
  have hd' : (ys.map Record.index).Nodup := (h.map _).nodup_iff.mp hd
  have ha (zs : List Record) : Ascending (empty.insertAll zs).1.records :=
    ascending_insertAll zs List.Pairwise.nil
  have hheld : (empty.insertAll xs).1.records ~ (empty.insertAll ys).1.records := by
    apply (List.perm_ext_iff_of_nodup (ha xs).nodup (ha ys).nodup).mpr
    intro x
    simp only [held_iff hd, held_iff hd', h.mem_iff]
  have heq : (empty.insertAll xs).1.records = (empty.insertAll ys).1.records := by
    apply hheld.eq_of_pairwise _ (ha xs) (ha ys)
    intro a b _ _ hab hba
    exact absurd (hab.trans hba) (lt_irrefl _)
  exact congrArg Registry.mk heq

/-- A record is blamed as often as it is among the losers, which is once at most. -/
theorem count_lost {losers : List Record} (hd : (losers.map Record.index).Nodup) {x : Record}
    (hx : ∀ y ∈ losers, y.index = x.index → y = x) :
    (losers.map lost).count (lost x) = if x ∈ losers then 1 else 0 := by
  have hnodup : (losers.map lost).Nodup := by
    apply List.Nodup.of_map (fun b => b.2.1)
    rwa [List.map_map]
  have hmem : lost x ∈ losers.map lost ↔ x ∈ losers := by
    constructor
    · intro h
      obtain ⟨y, hy, he⟩ := List.mem_map.mp h
      have hi : y.index = x.index := congrArg (fun b => b.2.1) he
      exact hx y hy hi ▸ hy
    · exact List.mem_map_of_mem
  split_ifs with h
  · exact List.count_eq_one_of_mem hnodup (hmem.mpr h)
  · exact List.count_eq_zero.mpr fun hm => h (hmem.mp hm)

/-- Insertions in any order leave each key to the earliest input that claims it, in ascending order
of the keys, and report each of the other records once. -/
theorem insertAll_accounted (inserted : List Record) (hd : (inserted.map Record.index).Nodup) :
    Accounted inserted (empty.insertAll inserted).1 (empty.insertAll inserted).2 := by
  have ha : Ascending (empty.insertAll inserted).1.records :=
    ascending_insertAll inserted List.Pairwise.nil
  obtain ⟨losers, he, hp⟩ := losers_held_perm hd
  have hinj : ∀ y ∈ inserted, ∀ x ∈ inserted, y.index = x.index → y = x :=
    fun y hy x hx => List.inj_on_of_nodup_map hd hy hx
  have hlosers : ∀ y ∈ losers, y ∈ inserted := fun y hy => hp.mem_iff.mp (List.mem_append_left _ hy)
  have hnodup : ((losers ++ (empty.insertAll inserted).1.records).map Record.index).Nodup :=
    (hp.map _).nodup_iff.mpr hd
  refine ⟨?_, ?_, ha, ?_, ?_⟩
  · intro identity x
    rw [find?, Roster.find_eq_some_iff ha.keys_nodup, held_iff hd]
    constructor
    · rintro ⟨⟨hx, hleast⟩, hk⟩
      exact ⟨hx, hk, fun y hy hyk => hleast y hy (hyk.trans hk.symm)⟩
    · rintro ⟨hx, hk, hleast⟩
      exact ⟨⟨hx, fun y hy hyk => hleast y hy (hyk.trans hk)⟩, hk⟩
  · intro identity
    rw [find?, Roster.find_eq_none_iff, Roster.keys, mem_keys_insertAll]
    simp [empty]
  · intro x hx
    rw [List.map_append] at hnodup
    have hcount := count_lost hnodup.of_append_left fun y hy => hinj y (hlosers y hy) x hx
    rw [he, hcount]
    -- what is held is not lost, and what is not held is
    by_cases hheld : x ∈ (empty.insertAll inserted).1.records
    · have hnot : x ∉ losers := fun hl =>
        List.disjoint_of_nodup_append hnodup (List.mem_map_of_mem hl) (List.mem_map_of_mem hheld)
      exact Or.inl ⟨hheld, if_neg hnot⟩
    · have hl : x ∈ losers := (List.mem_append.mp (hp.mem_iff.mpr hx)).resolve_right hheld
      exact Or.inr ⟨hheld, if_pos hl⟩
  · intro e hm
    have hb : blamed e ∈ losers.map lost := he ▸ List.mem_map_of_mem hm
    obtain ⟨x, hx, hl⟩ := List.mem_map.mp hb
    exact ⟨x, hlosers x hx, hl.symm⟩

theorem insertAll_accounted_backwards :
    let inserted := [coreFrom "c" 2, coreFrom "b" 1, coreFrom "a" 0]
    (inserted.map Record.index).Nodup ∧
      Accounted inserted (empty.insertAll inserted).1 (empty.insertAll inserted).2 :=
  ⟨by decide, insertAll_accounted _ (by decide)⟩

end Overlay.Registry
