import Overlay.Registry
import Mathlib.Data.List.Sort
import Mathlib.Data.String.Basic

/-! The registry as a whole. Its records ascend strictly by key. Every insertion either adds the
record, or settles a conflict between it and the holder of its key: the two are then one record in
the registry and one that is reported. -/
namespace Overlay.Registry
open scoped List

def Ascending (records : List Record) : Prop :=
  records.Pairwise fun a b => keyOf a < keyOf b

theorem Ascending.keys_nodup {records : List Record} (h : Ascending records) :
    (records.map keyOf).Nodup := by
  apply List.pairwise_map.mpr
  apply h.imp
  intro a b hlt he
  exact lt_irrefl _ (he ▸ hlt)

theorem Ascending.nodup {records : List Record} (h : Ascending records) : records.Nodup :=
  h.keys_nodup.of_map

theorem Ascending.eq_of_key {records : List Record} (h : Ascending records) {a b : Record}
    (ha : a ∈ records) (hb : b ∈ records) (hk : keyOf a = keyOf b) : a = b :=
  List.inj_on_of_nodup_map h.keys_nodup ha hb hk

structure Conflict where
  loser : Record
  rival : Record

def Conflict.error (c : Conflict) : FragmentError := duplicate c.loser c.rival

/-- The rival has the key of the loser and comes earlier among the inputs. -/
def Conflict.Settled (c : Conflict) : Prop :=
  keyOf c.rival = keyOf c.loser ∧ c.rival.index < c.loser.index

/-- A record finds its key free, or is in conflict with the record that holds it. -/
theorem place_cases {x : Record} {records : List Record} (hx : x.index ∉ records.map Record.index) :
    ((place x records).2 = none ∧ (place x records).1 ~ x :: records) ∨
      ∃ c : Conflict, (place x records).2 = some c.error ∧ c.Settled ∧
        c.rival ∈ x :: records ∧ c.loser :: (place x records).1 ~ x :: records := by
  induction records with
  | nil => exact Or.inl ⟨rfl, List.Perm.refl _⟩
  | cons r rs ih =>
    rw [List.map_cons, List.mem_cons, not_or] at hx
    rw [place]
    split_ifs with hlt heq hi
    · exact Or.inl ⟨rfl, List.Perm.refl _⟩
    · refine Or.inr ⟨⟨r, x⟩, rfl, ⟨heq, hi⟩, by simp, ?_⟩
      exact List.Perm.swap x r rs
    · refine Or.inr ⟨⟨x, r⟩, rfl, ⟨heq.symm, ?_⟩, by simp, List.Perm.refl _⟩
      exact lt_of_le_of_ne (Nat.le_of_not_lt hi) (Ne.symm hx.1)
    · rcases ih hx.2 with ⟨hn, hp⟩ | ⟨c, he, hc, hm, hp⟩
      · exact Or.inl ⟨hn, (hp.cons r).trans (List.Perm.swap x r rs)⟩
      · refine Or.inr ⟨c, he, hc, ?_, ?_⟩
        · rcases List.mem_cons.mp hm with hm | hm <;> simp [hm]
        · calc
            c.loser :: r :: (place x rs).1 ~ r :: c.loser :: (place x rs).1 :=
              List.Perm.swap _ _ _
            _ ~ r :: x :: rs := hp.cons r
            _ ~ x :: r :: rs := List.Perm.swap _ _ _

theorem mem_of_mem_place {x r : Record} {records : List Record} (h : r ∈ (place x records).1) :
    r = x ∨ r ∈ records := by
  induction records with
  | nil => exact Or.inl (by simpa [place] using h)
  | cons s rs ih =>
    rw [place] at h
    split_ifs at h
    · exact List.mem_cons.mp h
    · rcases List.mem_cons.mp h with h | h <;> simp [h]
    · exact Or.inr h
    · rcases List.mem_cons.mp h with h | h
      · simp [h]
      · rcases ih h with h | h <;> simp [h]

theorem ascending_place {x : Record} {records : List Record} (h : Ascending records) :
    Ascending (place x records).1 := by
  induction records with
  | nil => exact List.pairwise_singleton _ _
  | cons r rs ih =>
    obtain ⟨hr, hrs⟩ := List.pairwise_cons.mp h
    rw [place]
    split_ifs with hlt heq hi
    · refine List.pairwise_cons.mpr ⟨?_, h⟩
      intro y hy
      rcases List.mem_cons.mp hy with rfl | hy
      · exact hlt
      · exact hlt.trans (hr y hy)
    · exact List.pairwise_cons.mpr ⟨fun y hy => heq ▸ hr y hy, hrs⟩
    · exact h
    · refine List.pairwise_cons.mpr ⟨?_, ih hrs⟩
      intro y hy
      rcases mem_of_mem_place hy with rfl | hy
      · exact lt_of_le_of_ne (not_lt.mp hlt) (Ne.symm heq)
      · exact hr y hy

/-- The keys ascend after any insertions. -/
theorem ascending_insertAll {r : Registry} (xs : List Record) (h : Ascending r.records) :
    Ascending (r.insertAll xs).1.records := by
  induction xs generalizing r with
  | nil => exact h
  | cons x xs ih => exact ih (r := (r.insert x).1) (ascending_place h)

/-- Whether a record is put in or loses its key to another one, the key is there. -/
theorem mem_keys_place {x : Record} {records : List Record} {key : String} :
    key ∈ (place x records).1.map keyOf ↔ key = keyOf x ∨ key ∈ records.map keyOf := by
  induction records with
  | nil => simp [place]
  | cons r rs ih =>
    rw [place]
    split_ifs with hlt heq hi
    · rw [List.map_cons, List.mem_cons]
    · simp [heq]
    · simp [heq]
    · rw [List.map_cons, List.map_cons, List.mem_cons, List.mem_cons, ih]
      exact or_left_comm

/-- Every key that some records have is held in the end. -/
theorem mem_keys_insertAll {r : Registry} {xs : List Record} {key : String} :
    key ∈ (r.insertAll xs).1.records.map keyOf ↔
      key ∈ xs.map keyOf ∨ key ∈ r.records.map keyOf := by
  induction xs generalizing r with
  | nil => simp [insertAll]
  | cons x xs ih =>
    have hstep : key ∈ (r.insertAll (x :: xs)).1.records.map keyOf ↔ key ∈ xs.map keyOf ∨
        key ∈ (r.insert x).1.records.map keyOf := ih
    have hplace : key ∈ (r.insert x).1.records.map keyOf ↔
        key = keyOf x ∨ key ∈ r.records.map keyOf := mem_keys_place
    rw [hstep, hplace, List.map_cons, List.mem_cons, or_assoc]
    exact or_left_comm

/-- What some insertions do: every record is held by the registry or lost in one of the conflicts
that are reported. -/
theorem insertAll_conflicts (r : Registry) (xs : List Record)
    (hd : ((xs ++ r.records).map Record.index).Nodup) :
    ∃ conflicts : List Conflict, (r.insertAll xs).2 = conflicts.map Conflict.error ∧
      conflicts.map Conflict.loser ++ (r.insertAll xs).1.records ~ xs ++ r.records ∧
      ∀ c ∈ conflicts, c.Settled ∧ c.rival ∈ xs ++ r.records := by
  induction xs generalizing r with
  | nil => exact ⟨[], rfl, List.Perm.refl _, by simp⟩
  | cons x xs ih =>
    have hx : x.index ∉ r.records.map Record.index := by
      intro hm
      simp only [List.cons_append, List.map_cons, List.map_append, List.nodup_cons,
        List.mem_append] at hd
      exact hd.1 (Or.inr hm)
    have hadd : (r.insertAll (x :: xs)).1 = ((r.insert x).1.insertAll xs).1 := rfl
    have herr : (r.insertAll (x :: xs)).2 =
      (r.insert x).2.toList ++ ((r.insert x).1.insertAll xs).2 := rfl
    rw [hadd, herr]
    -- the record is new, or one of the two that claim the key is lost
    rcases place_cases hx with ⟨hn, hp⟩ | ⟨c, hs, hc, hm, hp⟩
    · have hnone : (r.insert x).2 = none := hn
      have hp' : xs ++ (r.insert x).1.records ~ x :: xs ++ r.records :=
        (hp.append_left xs).trans List.perm_middle
      obtain ⟨conflicts, he, hq, hcs⟩ :=
        ih (r.insert x).1 ((hp'.map Record.index).nodup_iff.mpr hd)
      refine ⟨conflicts, by rw [hnone, he]; rfl, hq.trans hp', ?_⟩
      exact fun c hm => ⟨(hcs c hm).1, hp'.mem_iff.mp (hcs c hm).2⟩
    · have hsome : (r.insert x).2 = some c.error := hs
      have hp' : c.loser :: (xs ++ (r.insert x).1.records) ~ x :: xs ++ r.records :=
        calc
          _ ~ xs ++ c.loser :: (r.insert x).1.records := List.perm_middle.symm
          _ ~ xs ++ x :: r.records := hp.append_left xs
          _ ~ _ := List.perm_middle
      obtain ⟨conflicts, he, hq, hcs⟩ := ih (r.insert x).1
        (List.nodup_cons.mp ((hp'.map Record.index).nodup_iff.mpr hd)).2
      refine ⟨c :: conflicts, by rw [hsome, he]; rfl, (hq.cons c.loser).trans hp', ?_⟩
      intro d hd
      rcases List.mem_cons.mp hd with rfl | hd
      · refine ⟨hc, ?_⟩
        rcases List.mem_cons.mp hm with hm | hm <;> simp [hm]
      · exact ⟨(hcs d hd).1, hp'.mem_iff.mp (List.mem_cons_of_mem _ (hcs d hd).2)⟩

/-- The first of some records that has the key of a record and comes earlier among the inputs. -/
def rival? (records : List Record) (x : Record) : Option Record :=
  records.find? fun y => keyOf y = keyOf x ∧ y.index < x.index

theorem isSome_rival {records : List Record} {x : Record} :
    (rival? records x).isSome ↔ ∃ y ∈ records, keyOf y = keyOf x ∧ y.index < x.index := by
  simp [rival?]

/-- A registry filled from nothing holds, of the records of a key, the earliest input. -/
theorem index_le_of_held {xs : List Record} (hd : (xs.map Record.index).Nodup) {r y : Record}
    (hr : r ∈ (empty.insertAll xs).1.records) (hy : y ∈ xs) (hk : keyOf y = keyOf r) :
    r.index ≤ y.index := by
  obtain ⟨conflicts, _, hp, hc⟩ := insertAll_conflicts empty xs (by simpa [empty] using hd)
  have hasc : Ascending (empty.insertAll xs).1.records := ascending_insertAll xs List.Pairwise.nil
  have hmem (z : Record) (hz : z ∈ xs) :
      z ∈ conflicts.map Conflict.loser ∨ z ∈ (empty.insertAll xs).1.records := by
    apply List.mem_append.mp
    exact hp.mem_iff.mpr (List.mem_append_left _ hz)
  induction hn : y.index using Nat.strong_induction_on generalizing y with
  | _ n ih =>
    rcases hmem y hy with hl | hh
    · obtain ⟨c, hcm, rfl⟩ := List.mem_map.mp hl
      obtain ⟨⟨hck, hci⟩, hcr⟩ := hc c hcm
      have hcx : c.rival ∈ xs := by simpa [empty] using hcr
      have hle := ih c.rival.index (hn ▸ hci) hcx (hck.trans hk) rfl
      exact hn ▸ Nat.le_of_lt (Nat.lt_of_le_of_lt hle hci)
    · exact hn ▸ Nat.le_of_eq (congrArg Record.index (hasc.eq_of_key hr hh hk.symm))

/-- The records that are reported are the ones with a rival. -/
theorem conflicts_of_insertAll {xs : List Record} (hd : (xs.map Record.index).Nodup) :
    ∃ conflicts : List Conflict, (empty.insertAll xs).2 = conflicts.map Conflict.error ∧
      conflicts.map Conflict.loser ~ xs.filter (fun x => (rival? xs x).isSome) ∧
      ∀ c ∈ conflicts, c.Settled ∧ c.rival ∈ xs := by
  obtain ⟨conflicts, he, hp, hc⟩ := insertAll_conflicts empty xs (by simpa [empty] using hd)
  have hp' : conflicts.map Conflict.loser ++ (empty.insertAll xs).1.records ~ xs := by
    simpa [empty] using hp
  have hc' : ∀ c ∈ conflicts, c.Settled ∧ c.rival ∈ xs := by simpa [empty] using hc
  refine ⟨conflicts, he, ?_, hc'⟩
  have hlost : (conflicts.map Conflict.loser).filter (fun x => (rival? xs x).isSome) =
      conflicts.map Conflict.loser := by
    apply List.filter_eq_self.mpr
    intro x hx
    obtain ⟨c, hcm, rfl⟩ := List.mem_map.mp hx
    exact isSome_rival.mpr ⟨c.rival, (hc' c hcm).2, (hc' c hcm).1⟩
  have hheld : ((empty.insertAll xs).1.records).filter (fun x => (rival? xs x).isSome) = [] := by
    apply List.filter_eq_nil_iff.mpr
    intro x hx hs
    obtain ⟨y, hy, hk, hi⟩ := isSome_rival.mp hs
    exact Nat.not_lt.mpr (index_le_of_held hd hx hy hk) hi
  have hf := hp'.filter (fun x => (rival? xs x).isSome)
  rwa [List.filter_append, hlost, hheld, List.append_nil] at hf

end Overlay.Registry
