import Overlay.Proofs.Order.Isolated
import Overlay.Proofs.Registry.Circle

namespace Overlay

/-- What every record of a fragment without registration looks like to the resolver. -/
structure Record.Loose (x : Record) : Prop where
  registered : x.registered = false
  dependencies : x.dependencies = []
  requiredVersion : x.requiredVersion = none

namespace Registry

variable {before after : List Record} {x : Record}

theorem getElem_shifted (before after : List Record) (x : Record) (i : Nat) :
    (before ++ x :: after)[shifted before.length i]? = (before ++ after)[i]? := by
  rcases Nat.lt_or_ge i before.length with hi | hi
  · rw [shifted_of_lt hi, List.getElem?_append_left hi, List.getElem?_append_left hi]
  · have hs : i + 1 - before.length = (i - before.length) + 1 := by omega
    rw [shifted_of_le hi, List.getElem?_append_right (by omega), List.getElem?_append_right hi,
      hs, List.getElem?_cons_succ]

section Resolving

variable (hx : x.Loose)
include hx

theorem target_loose (d : Dependency) :
    target? (before ++ x :: after) d = target? (before ++ after) d := by
  simp [target?, hx.registered]

/-- The target of a dependency stands where it stood, or one place further behind. -/
theorem targetIndex_loose (d : Dependency) : targetIndex? (before ++ x :: after) d =
    (targetIndex? (before ++ after) d).map (shifted before.length) := by
  rw [targetIndex?, targetIndex?, List.findIdx?_append, List.findIdx?_append, List.findIdx?_cons]
  simp only [hx.registered, Bool.false_and, Bool.false_eq_true, if_false]
  cases hb : before.findIdx? fun r => r.registered && keyOf r = keyOf d with
  | some i =>
    have hi := (List.findIdx?_eq_some_iff_getElem.mp hb).1
    simp [shifted_of_lt hi]
  | none =>
    cases after.findIdx? fun r => r.registered && keyOf r = keyOf d with
    | none => rfl
    | some j =>
      have hj : shifted before.length (j + before.length) = j + before.length + 1 :=
        shifted_of_le (by omega)
      simp only [Option.none_or, Option.map_some, hj]
      congr 1
      omega

theorem fault_loose (host : Option DeclaredVersion) :
    fault? (before ++ x :: after) host = fault? (before ++ after) host := by
  have htarget : target? (before ++ x :: after) = target? (before ++ after) :=
    funext (target_loose hx)
  have hmissing : missingDependency? (before ++ x :: after) =
      missingDependency? (before ++ after) := by
    funext r
    rw [missingDependency?, missingDependency?, htarget]
  have hunmet : unmetDependency? (before ++ x :: after) = unmetDependency? (before ++ after) := by
    funext r
    rw [unmetDependency?, unmetDependency?, htarget]
  have hown : missingDependency? (before ++ after) x = none ∧
      unmetDependency? (before ++ after) x = none := by
    rw [missingDependency?, unmetDependency?, hx.dependencies]
    exact ⟨rfl, rfl⟩
  have hhost (v : DeclaredVersion) : unmetHost? v x = none := by
    rw [unmetHost?, hx.requiredVersion]
    rfl
  simp only [fault?, hmissing, hunmet, List.findSome?_append, List.findSome?_cons, hown, hhost]

/-- In the graph of the dependencies the record is a node by itself. -/
theorem inserted_graph (before after : List Record) :
    Order.Inserted (graph (before ++ after)) (graph (before ++ x :: after)) before.length := by
  refine ⟨by simp [graph], by simp [graph]; omega, ?_, ?_⟩
  · have hi : (before ++ x :: after)[before.length]? = some x := by simp
    rw [requires_graph hi, hx.dependencies]
    rfl
  · intro i
    have hi := getElem_shifted before after x i
    cases hr : (before ++ after)[i]? with
    | none =>
      rw [hr] at hi
      simp only [Order.requires, graph, List.getElem?_map, hi, hr]
      rfl
    | some r =>
      rw [hr] at hi
      rw [requires_graph hi, requires_graph hr, List.map_filterMap]
      exact List.filterMap_congr fun d _ => targetIndex_loose hx d

omit hx in
theorem select_shifted (before after : List Record) (x : Record) (nodes : List Nat) :
    select (before ++ x :: after) (nodes.map (shifted before.length)) =
      select (before ++ after) nodes := by
  rw [select, select, List.filterMap_map]
  exact List.filterMap_congr fun i _ => getElem_shifted before after x i

omit hx in
/-- To leave out a record of an order is to leave out its node. -/
theorem select_filter {p : Record → Bool} (hp : p x = false)
    (hall : ∀ r ∈ before ++ after, p r = true) (nodes : List Nat) :
    (select (before ++ x :: after) nodes).filter p =
      select (before ++ x :: after) (nodes.filter (· ≠ before.length)) := by
  induction nodes with
  | nil => rfl
  | cons i nodes ih =>
    have hcons (is : List Nat) : select (before ++ x :: after) (i :: is) =
        (before ++ x :: after)[i]?.toList ++ select (before ++ x :: after) is := by
      rw [select, List.filterMap_cons]
      cases (before ++ x :: after)[i]? <;> rfl
    rw [hcons, List.filter_append, ih]
    by_cases hi : i = before.length
    · subst hi
      simp [hp]
    · obtain ⟨j, rfl⟩ := exists_shifted hi
      rw [List.filter_cons_of_pos (by simpa using hi), hcons, getElem_shifted]
      cases hj : (before ++ after)[j]? with
      | none => rfl
      | some r => simp [hall r (List.mem_of_getElem? hj)]

/-- The order of the other records is the same without the record, and so is the error. -/
theorem resolve_loose (ha : Ascending (before ++ after)) {p : Record → Bool} (hp : p x = false)
    (hall : ∀ r ∈ before ++ after, p r = true) (host : Option DeclaredVersion) :
    (resolve ⟨before ++ x :: after⟩ host).map (List.filter p) =
      resolve ⟨before ++ after⟩ host := by
  have hi := inserted_graph hx before after
  rw [resolve, resolve, fault_loose hx]
  cases fault? (before ++ after) host with
  | some e => rfl
  | none =>
    cases hs : Order.sort (graph (before ++ after)) with
    | ok nodes =>
      obtain ⟨nodes', hs', hn⟩ := hi.sort_ok hs
      simp only [hs', Except.map]
      rw [select_filter hp hall, hn, select_shifted]
    | error cycle =>
      have hs' := hi.sort_error (requires_lt ha) hs
      simp only [hs', Except.map, select_shifted]

end Resolving

/-- A record with a key before all others is put in first. -/
theorem place_of_lt {r : Record} (rs : List Record) (h : keyOf x < keyOf r) :
    place x (r :: rs) = (x :: r :: rs, none) := by
  rw [place, if_pos h]

/-- A record with a later key than the first one is put in behind it. -/
theorem place_of_gt {r : Record} (rs : List Record) (h : keyOf r < keyOf x) :
    place x (r :: rs) = (r :: (place x rs).1, (place x rs).2) := by
  rw [place, if_neg h.not_gt, if_neg h.ne']

/-- One of two records of a key keeps it, whatever stands behind them. -/
theorem place_of_eq {r : Record} (h : keyOf x = keyOf r) : ∃ winner e, keyOf winner = keyOf r ∧
    ∀ rs, place x (r :: rs) = (winner :: rs, some e) := by
  have hlt : ¬ keyOf x < keyOf r := h ▸ lt_irrefl _
  by_cases hi : x.index < r.index
  · exact ⟨x, duplicate r x, h, fun rs => by rw [place, if_neg hlt, if_pos h, if_pos hi]⟩
  · exact ⟨r, duplicate x r, rfl, fun rs => by rw [place, if_neg hlt, if_pos h, if_neg hi]⟩

/-- A record of a new key is put in somewhere, and no error is reported. -/
theorem place_new {records : List Record} (hx : keyOf x ∉ records.map keyOf) :
    ∃ before after, records = before ++ after ∧ place x records = (before ++ x :: after, none) := by
  induction records with
  | nil => exact ⟨[], [], rfl, rfl⟩
  | cons r rs ih =>
    rw [List.map_cons, List.mem_cons, not_or] at hx
    rcases lt_or_gt_of_ne hx.1 with hlt | hgt
    · exact ⟨[], r :: rs, rfl, place_of_lt rs hlt⟩
    · obtain ⟨before, after, rfl, hp⟩ := ih hx.2
      exact ⟨r :: before, after, rfl, by rw [place_of_gt _ hgt, hp]; rfl⟩

/-- A record that would come first still does when another one of a later key has been put in. -/
theorem place_before {y r : Record} (rs : List Record) (hr : keyOf x < keyOf r)
    (hy : keyOf x < keyOf y) : (place x (place y (r :: rs)).1).1 = x :: (place y (r :: rs)).1 := by
  rcases lt_trichotomy (keyOf y) (keyOf r) with hlt | heq | hgt
  · rw [place_of_lt rs hlt, place_of_lt _ hy]
  · obtain ⟨winner, e, hk, hp⟩ := place_of_eq heq
    rw [hp, place_of_lt _ (hk ▸ hr)]
  · rw [place_of_gt rs hgt, place_of_lt _ hr]

/-- Two records, one of them of a new key, can be put in in either order. -/
theorem place_place {y : Record} {records : List Record} (hx : keyOf x ∉ records.map keyOf)
    (hy : keyOf y ≠ keyOf x) : place y (place x records).1 =
      ((place x (place y records).1).1, (place y records).2) := by
  induction records with
  | nil =>
    rcases lt_or_gt_of_ne hy with h | h
    · simp [place, h, h.not_gt, hy.symm]
    · simp [place, h, h.not_gt, hy]
  | cons r rs ih =>
    rw [List.map_cons, List.mem_cons, not_or] at hx
    rcases lt_or_gt_of_ne hx.1 with hxr | hrx
    · rw [place_of_lt rs hxr]
      rcases lt_or_gt_of_ne hy with hyx | hxy
      · rw [place_of_lt _ hyx, place_of_lt rs (hyx.trans hxr), place_of_gt _ hyx,
          place_of_lt rs hxr]
      · rw [place_of_gt _ hxy, place_before rs hxr hxy]
    · rw [place_of_gt rs hrx]
      rcases lt_trichotomy (keyOf y) (keyOf r) with hlt | heq | hgt
      · rw [place_of_lt _ hlt, place_of_lt rs hlt, place_of_gt _ (hlt.trans hrx),
          place_of_gt rs hrx]
      · obtain ⟨winner, e, hk, hp⟩ := place_of_eq heq
        rw [hp, hp, place_of_gt _ (hk ▸ hrx)]
      · rw [place_of_gt _ hgt, place_of_gt rs hgt, place_of_gt _ hrx, ih hx.2]

/-- A record of a new key that is put in first stays where it would be put in last. -/
theorem insertAll_place {records xs : List Record} (hr : keyOf x ∉ records.map keyOf)
    (hx : keyOf x ∉ xs.map keyOf) : insertAll ⟨(place x records).1⟩ xs =
      (⟨(place x (insertAll ⟨records⟩ xs).1.records).1⟩, (insertAll ⟨records⟩ xs).2) := by
  induction xs generalizing records with
  | nil => rfl
  | cons y xs ih =>
    rw [List.map_cons, List.mem_cons, not_or] at hx
    have hnext : keyOf x ∉ (place y records).1.map keyOf := by
      rw [mem_keys_place, not_or]
      exact ⟨hx.1, hr⟩
    rw [insertAll, insertAll, insert, insert]
    dsimp only
    rw [place_place hr (Ne.symm hx.1)]
    dsimp only
    rw [ih hnext hx.2]

/-- A record of a key that no other one has might as well come last, and is not reported. -/
theorem insertAll_new {records front back : List Record} (hr : keyOf x ∉ records.map keyOf)
    (hx : keyOf x ∉ (front ++ back).map keyOf) : insertAll ⟨records⟩ (front ++ x :: back) =
      (⟨(place x (insertAll ⟨records⟩ (front ++ back)).1.records).1⟩,
        (insertAll ⟨records⟩ (front ++ back)).2) := by
  induction front generalizing records with
  | nil =>
    obtain ⟨before, after, -, hp⟩ := place_new hr
    have hnone : (place x records).2 = none := by rw [hp]
    rw [List.nil_append] at hx ⊢
    rw [List.nil_append, insertAll, insert]
    dsimp only
    rw [insertAll_place hr hx, hnone]
    rfl
  | cons y front ih =>
    rw [List.cons_append, List.map_cons, List.mem_cons, not_or] at hx
    have hnext : keyOf x ∉ (place y records).1.map keyOf := by
      rw [mem_keys_place, not_or]
      exact ⟨hx.1, hr⟩
    rw [List.cons_append, List.cons_append, insertAll, insertAll, insert]
    dsimp only
    rw [ih hnext hx.2]

end Registry

end Overlay
