import Overlay.Name
import Mathlib.Data.List.Nodup

namespace Overlay

theorem nameKey_eq {name key : String} (h : name.toList.map Char.toLower = key.toList) :
    nameKey name = key := by
  rw [nameKey, ← String.toList_inj, String.toList_map, h]

namespace Roster

variable {α : Type} [Named α] {members : List α} {x : α} {join f : α → α} {key : String}

theorem mem_of_find {a : α} (h : find? key members = some a) : a ∈ members :=
  List.mem_of_find?_eq_some h

theorem absorb_of_new (h : keyOf x ∉ keys members) : absorb join x members = members ++ [x] := by
  induction members with
  | nil => rfl
  | cons a as ih =>
    rw [keys, List.map_cons, List.mem_cons, not_or] at h
    rw [absorb, if_neg (Ne.symm h.1), ih h.2, List.cons_append]

/-- Joining a newcomer adds its key, unless it is there. -/
theorem keys_absorb (hj : ∀ a ∈ members, keyOf a = keyOf x → keyOf (join a) = keyOf x) :
    keys (absorb join x members) =
      if keyOf x ∈ keys members then keys members else keys members ++ [keyOf x] := by
  induction members with
  | nil => simp [absorb, keys]
  | cons a as ih =>
    by_cases ha : keyOf a = keyOf x
    · have hja := hj a List.mem_cons_self ha
      simp [absorb, keys, ha, hja]
    · have ih := ih fun b hb => hj b (List.mem_cons_of_mem a hb)
      rw [keys, keys] at ih
      rw [absorb, if_neg ha, keys, List.map_cons, ih, keys, List.map_cons]
      by_cases hm : keyOf x ∈ as.map keyOf
      · rw [if_pos hm, if_pos (List.mem_cons_of_mem _ hm)]
      · have hn : keyOf x ∉ keyOf a :: as.map keyOf := by
          rw [List.mem_cons, not_or]
          exact ⟨Ne.symm ha, hm⟩
        rw [if_neg hm, if_neg hn, List.cons_append]

theorem nodup_absorb (hj : ∀ a ∈ members, keyOf a = keyOf x → keyOf (join a) = keyOf x)
    (h : (keys members).Nodup) : (keys (absorb join x members)).Nodup := by
  rw [keys_absorb hj]
  split_ifs with hm
  · exact h
  · apply List.nodup_append.mpr
    refine ⟨h, List.nodup_singleton _, ?_⟩
    rintro k hk _ hk' rfl
    exact hm (List.mem_singleton.mp hk' ▸ hk)

/-- What holds of the members and the newcomer, and stays true by joining, holds of all. -/
theorem forall_absorb {P : α → Prop} (hm : ∀ a ∈ members, P a) (hx : P x)
    (hj : ∀ a ∈ members, keyOf a = keyOf x → P a → P (join a)) :
    ∀ a ∈ absorb join x members, P a := by
  induction members with
  | nil =>
    intro a ha
    rwa [List.mem_singleton.mp ha]
  | cons b bs ih =>
    have hb := hm b List.mem_cons_self
    have hbs : ∀ a ∈ bs, P a := fun a ha => hm a (List.mem_cons_of_mem b ha)
    rw [absorb]
    split_ifs with hk
    · intro a ha
      rcases List.mem_cons.mp ha with rfl | ha
      · exact hj b List.mem_cons_self hk hb
      · exact hbs a ha
    · intro a ha
      rcases List.mem_cons.mp ha with rfl | ha
      · exact hb
      · exact ih hbs (fun c hc => hj c (List.mem_cons_of_mem b hc)) a ha

theorem keys_change (hf : ∀ a ∈ members, keyOf (f a) = keyOf a) :
    keys (change key f members) = keys members := by
  induction members with
  | nil => rfl
  | cons a as ih =>
    have ih := ih fun b hb => hf b (List.mem_cons_of_mem a hb)
    rw [change]
    split_ifs
    · rw [keys, List.map_cons, hf a List.mem_cons_self]
      rfl
    · rw [keys, List.map_cons]
      exact congrArg _ ih

theorem forall_change {P : α → Prop} (hm : ∀ a ∈ members, P a)
    (hf : ∀ a ∈ members, P a → P (f a)) : ∀ a ∈ change key f members, P a := by
  induction members with
  | nil => exact hm
  | cons b bs ih =>
    have hb := hm b List.mem_cons_self
    have hbs : ∀ a ∈ bs, P a := fun a ha => hm a (List.mem_cons_of_mem b ha)
    rw [change]
    split_ifs
    · intro a ha
      rcases List.mem_cons.mp ha with rfl | ha
      · exact hf b List.mem_cons_self hb
      · exact hbs a ha
    · intro a ha
      rcases List.mem_cons.mp ha with rfl | ha
      · exact hb
      · exact ih hbs (fun c hc => hf c (List.mem_cons_of_mem b hc)) a ha

theorem find_cons (key : String) (a : α) (as : List α) :
    find? key (a :: as) = if keyOf a = key then some a else find? key as := by
  by_cases h : keyOf a = key <;> simp [find?, h]

/-- Joining a newcomer changes what is found under its key, and nothing else. -/
theorem find_absorb (hj : ∀ a ∈ members, keyOf a = keyOf x → keyOf (join a) = keyOf x) :
    find? key (absorb join x members) =
      if keyOf x = key then some ((find? key members).elim x join) else find? key members := by
  induction members with
  | nil => rw [absorb, find_cons]; rfl
  | cons a as ih =>
    obtain ⟨ha, has⟩ := List.forall_mem_cons.mp hj
    by_cases hx : keyOf a = keyOf x
    · rw [absorb, if_pos hx, find_cons, ha hx, find_cons, hx]
      split_ifs <;> rfl
    · rw [absorb, if_neg hx, find_cons, find_cons, ih has]
      by_cases hk : keyOf a = key
      · have hxk : keyOf x ≠ key := fun h => hx (hk.trans h.symm)
        rw [if_pos hk, if_neg hxk, if_pos hk]
      · rw [if_neg hk, if_neg hk]

def bearing (key : String) (members : List α) : List α :=
  members.filter fun a => keyOf a = key

theorem bearing_cons (key : String) (a : α) (as : List α) :
    bearing key (a :: as) = if keyOf a = key then a :: bearing key as else bearing key as := by
  by_cases h : keyOf a = key <;> simp [bearing, h]

theorem bearing_append (key : String) (members more : List α) :
    bearing key (members ++ more) = bearing key members ++ bearing key more :=
  List.filter_append members more

/-- Of the newcomers only those with the key matter to what is found, in their order. -/
theorem find_foldl_absorb {β : Type} [Named β] (new : β → α) (join : β → α → α)
    (hn : ∀ b, keyOf (new b) = keyOf b) (hj : ∀ b a, keyOf (join b a) = keyOf a)
    (key : String) (newcomers : List β) (members : List α) :
    find? key (newcomers.foldl (fun all b => absorb (join b) (new b) all) members) =
      (bearing key newcomers).foldl (fun found b => some (found.elim (new b) (join b)))
        (find? key members) := by
  induction newcomers generalizing members with
  | nil => rfl
  | cons b bs ih =>
    have hkey : ∀ a ∈ members, keyOf a = keyOf (new b) → keyOf (join b a) = keyOf (new b) :=
      fun a _ ha => (hj b a).trans ha
    rw [List.foldl_cons, ih, find_absorb hkey, hn b, bearing_cons]
    split_ifs <;> rfl

/-- Nothing is found exactly under the keys that no member has. -/
theorem find_eq_none_iff : find? key members = none ↔ key ∉ keys members := by
  rw [find?, List.find?_eq_none, keys, List.mem_map]
  simp only [decide_eq_true_eq, not_exists, not_and]

/-- Where keys are apart, one member at most bears a key. -/
theorem bearing_eq_find (key : String) (h : (keys members).Nodup) :
    bearing key members = (find? key members).toList := by
  induction members with
  | nil => rfl
  | cons a as ih =>
    obtain ⟨ha, has⟩ := List.nodup_cons.mp h
    rw [bearing_cons, find_cons, ih has]
    split_ifs with hk
    · rw [find_eq_none_iff.mpr (hk ▸ ha)]
      rfl
    · rfl

/-- With no key borne twice, what is found is the one member with the key. -/
theorem find_eq_some_iff (h : (keys members).Nodup) {a : α} :
    find? key members = some a ↔ a ∈ members ∧ keyOf a = key := by
  rw [← Option.mem_toList, ← bearing_eq_find key h, bearing, List.mem_filter, decide_eq_true_eq]

end Roster

end Overlay
