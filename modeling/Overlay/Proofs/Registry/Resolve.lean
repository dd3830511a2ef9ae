import Overlay.Proofs.Name
import Overlay.Proofs.Order
import Overlay.Proofs.Registry
import Overlay.Registry.Resolve

namespace Overlay

/-- A record has the version that a dependency asks for, if it asks for one. -/
def Record.Suits (t : Record) (d : Dependency) : Prop :=
  ∀ requirement, d.requirement = some requirement →
    ∃ v, t.version = some v ∧ v.satisfies requirement = true

namespace Registry
open scoped List

def Names (records : List Record) (d : Dependency) (t : Record) : Prop :=
  t ∈ records ∧ t.registered = true ∧ keyOf t = keyOf d

def Satisfied (records front : List Record) (x : Record) : Prop :=
  ∀ d ∈ x.dependencies, ∀ t, Names records d t → t ∈ front

/-- An order of all records in which each comes after the ones it depends on. -/
structure Topological (records order : List Record) : Prop where
  perm : order ~ records
  satisfied : ∀ front x rest, order = front ++ x :: rest → Satisfied records front x

variable {records : List Record}

theorem names_of_target {d : Dependency} {t : Record} (h : target? records d = some t) :
    Names records d t := by
  have hp := List.find?_some h
  rw [Bool.and_eq_true, decide_eq_true_eq] at hp
  exact ⟨List.mem_of_find?_eq_some h, hp⟩

/-- In a registry a record that a dependency names is the one that is found. -/
theorem target_of_names (ha : Ascending records) {d : Dependency} {t : Record}
    (h : Names records d t) : target? records d = some t := by
  have hs : (target? records d).isSome := by
    rw [target?, List.find?_isSome]
    exact ⟨t, h.1, by simp [h.2.1, h.2.2]⟩
  obtain ⟨u, hu⟩ := Option.isSome_iff_exists.mp hs
  have hn := names_of_target hu
  rw [hu, ha.eq_of_key hn.1 h.1 (hn.2.2.trans h.2.2.symm)]

/-- No dependency of a record is missing exactly if there is a target for each. -/
theorem missing_eq_none_iff {x : Record} : missingDependency? records x = none ↔
    ∀ d ∈ x.dependencies, ∃ t, target? records d = some t := by
  rw [missingDependency?, List.findSome?_eq_none_iff]
  refine forall₂_congr fun d _ => ?_
  cases target? records d <;> simp

theorem unmet_eq_none_iff {x : Record} :
    unmetDependency? records x = none ↔ ∀ d ∈ x.dependencies, ∀ t, target? records d = some t →
      ∀ requirement, d.requirement = some requirement → meets t requirement = true := by
  rw [unmetDependency?, List.findSome?_eq_none_iff]
  refine forall₂_congr fun d _ => ?_
  cases ht : target? records d with
  | none => simp
  | some t =>
    cases hr : d.requirement with
    | none => simp
    | some requirement => simp

theorem suits_iff {t : Record} {d : Dependency} : t.Suits d ↔
    ∀ requirement, d.requirement = some requirement → meets t requirement = true := by
  simp only [Record.Suits, meets, Option.any_eq_true]

/-- There is no fault exactly if no record has one of its own. -/
theorem fault_eq_none_iff {host : Option DeclaredVersion} :
    fault? records host = none ↔ (∀ x ∈ records, missingDependency? records x = none) ∧
      (∀ x ∈ records, unmetDependency? records x = none) ∧
      ∀ h ∈ host, ∀ x ∈ records, unmetHost? h x = none := by
  rw [fault?]
  cases host <;> simp [Option.or_eq_none_iff]

/-- Behind an order stand sorted nodes, and records without fault. -/
theorem resolve_eq_ok {r : Registry} {host : Option DeclaredVersion} {order : List Record}
    (h : r.resolve host = .ok order) : fault? r.records host = none ∧
      ∃ nodes, Order.sort (graph r.records) = .ok nodes ∧ order = select r.records nodes := by
  rw [resolve] at h
  cases hf : fault? r.records host with
  | some e => simp [hf] at h
  | none =>
    refine ⟨rfl, ?_⟩
    cases hs : Order.sort (graph r.records) with
    | error cycle => simp [hf, hs] at h
    | ok nodes => exact ⟨nodes, rfl, by simpa [hf, hs] using h.symm⟩

theorem mem_select {nodes : List Nat} {t : Record} :
    t ∈ select records nodes ↔ ∃ i ∈ nodes, records[i]? = some t := by
  simp [select]

theorem select_append (a b : List Nat) :
    select records (a ++ b) = select records a ++ select records b := by
  simp [select]

/-- Where a record stands among selected ones, its node stands among the nodes. -/
theorem select_split {nodes : List Nat} {front rest : List Record} {x : Record}
    (h : select records nodes = front ++ x :: rest) :
    ∃ before i after, nodes = before ++ i :: after ∧ select records before = front ∧
      records[i]? = some x := by
  obtain ⟨a, b, rfl, ha, hb⟩ := List.filterMap_eq_append_iff.mp h
  obtain ⟨c, i, d, rfl, hc, hi, _⟩ := List.filterMap_eq_cons_iff.mp hb
  refine ⟨a ++ c, i, d, by simp, ?_, hi⟩
  have hn : select records c = [] := List.filterMap_eq_nil_iff.mpr hc
  rw [select_append, hn, List.append_nil]
  exact ha

theorem select_range (records : List Record) :
    select records (List.range records.length) = records := by
  induction records using List.reverseRecOn with
  | nil => rfl
  | append_singleton xs x ih =>
    have hfront : select (xs ++ [x]) (List.range xs.length) = select xs (List.range xs.length) := by
      apply List.filterMap_congr
      intro i hi
      exact List.getElem?_append_left (List.mem_range.mp hi)
    rw [List.length_append, List.length_singleton, List.range_succ, select_append, hfront, ih]
    simp [select]

/-- The requirements of a node are the places of the targets. -/
theorem requires_graph {i : Nat} {x : Record} (hi : records[i]? = some x) :
    Order.requires (graph records) i = x.dependencies.filterMap (targetIndex? records) := by
  simp [Order.requires, graph, hi]

/-- A target stands at a place exactly if the record there is the one that is named. -/
theorem targetIndex_eq_some (ha : Ascending records) {d : Dependency} {k : Nat} :
    targetIndex? records d = some k ↔ ∃ t, records[k]? = some t ∧ Names records d t := by
  rw [targetIndex?, List.findIdx?_eq_some_iff_getElem]
  constructor
  · rintro ⟨hk, hp, _⟩
    rw [Bool.and_eq_true, decide_eq_true_eq] at hp
    exact ⟨records[k], List.getElem?_eq_getElem hk, List.getElem_mem hk, hp⟩
  · rintro ⟨t, ht, hn⟩
    obtain ⟨hk, rfl⟩ := List.getElem?_eq_some_iff.mp ht
    refine ⟨hk, by simp [hn.2.1, hn.2.2], ?_⟩
    intro j hj hp
    rw [Bool.and_eq_true, decide_eq_true_eq] at hp
    have hlt := List.pairwise_iff_getElem.mp ha j k (hj.trans hk) hk hj
    exact lt_irrefl _ (hp.2.trans hn.2.2.symm ▸ hlt)

/-- A record is selected exactly if its node is. -/
theorem mem_select_iff (ha : Ascending records) {i : Nat} {x : Record} (hi : records[i]? = some x)
    (nodes : List Nat) : x ∈ select records nodes ↔ i ∈ nodes := by
  rw [mem_select]
  constructor
  · rintro ⟨j, hj, hx⟩
    obtain ⟨hil, hix⟩ := List.getElem?_eq_some_iff.mp hi
    obtain ⟨hjl, hjx⟩ := List.getElem?_eq_some_iff.mp hx
    have hij : i = j := (ha.nodup.getElem_inj_iff).mp (hix.trans hjx.symm)
    exact hij ▸ hj
  · exact fun h => ⟨i, h, hi⟩

/-- The nodes that a node requires are in front exactly if the records it depends on are. -/
theorem requires_mem_iff (ha : Ascending records) {i : Nat} {x : Record}
    (hi : records[i]? = some x) (before : List Nat) :
    (∀ k ∈ Order.requires (graph records) i, k ∈ before) ↔
      Satisfied records (select records before) x := by
  rw [requires_graph hi]
  constructor
  · intro h d hd t ht
    obtain ⟨k, hk⟩ := List.getElem?_of_mem ht.1
    have hr := (targetIndex_eq_some ha).mpr ⟨t, hk, ht⟩
    exact mem_select.mpr ⟨k, h k (List.mem_filterMap.mpr ⟨d, hd, hr⟩), hk⟩
  · intro h k hk
    obtain ⟨d, hd, hr⟩ := List.mem_filterMap.mp hk
    obtain ⟨t, ht, hn⟩ := (targetIndex_eq_some ha).mp hr
    exact (mem_select_iff ha ht before).mp (h d hd t hn)

theorem key_le_of_index_le (ha : Ascending records) {i j : Nat} {x y : Record}
    (hi : records[i]? = some x) (hj : records[j]? = some y) (hij : i ≤ j) : keyOf x ≤ keyOf y := by
  rcases Nat.eq_or_lt_of_le hij with rfl | hlt
  · exact le_of_eq (congrArg keyOf (Option.some.inj (hi.symm.trans hj)))
  · obtain ⟨hil, rfl⟩ := List.getElem?_eq_some_iff.mp hi
    obtain ⟨hjl, rfl⟩ := List.getElem?_eq_some_iff.mp hj
    exact le_of_lt (List.pairwise_iff_getElem.mp ha i j hil hjl hlt)

/-- What sorting the graph says of the selected records. -/
theorem select_sorted (ha : Ascending records) {nodes : List Nat}
    (h : Order.sort (graph records) = .ok nodes) :
    Topological records (select records nodes) ∧
      ∀ front x rest, select records nodes = front ++ x :: rest → ∀ y ∈ records, y ∉ front →
        Satisfied records front y → keyOf x ≤ keyOf y := by
  obtain ⟨hp, hl⟩ := Order.sort_eq_ok h
  have hlen : (graph records).length = records.length := by simp [graph]
  rw [hlen] at hp
  have hperm : select records nodes ~ records := by
    have h := hp.filterMap fun i => records[i]?
    rwa [← select, ← select, select_range] at h
  refine ⟨⟨hperm, ?_⟩, ?_⟩
  · intro front x rest he
    obtain ⟨before, i, after, rfl, rfl, hi⟩ := select_split he
    exact (requires_mem_iff ha hi before).mp (hl before i after rfl).1.2.2
  · intro front x rest he y hy hyf hys
    obtain ⟨before, i, after, rfl, rfl, hi⟩ := select_split he
    obtain ⟨j, hj⟩ := List.getElem?_of_mem hy
    have hjl : j < (graph records).length := hlen ▸ (List.getElem?_eq_some_iff.mp hj).1
    have hjb : j ∉ before := fun hm => hyf (mem_select.mpr ⟨j, hm, hj⟩)
    have havail := (requires_mem_iff ha hj before).mpr hys
    exact key_le_of_index_le ha hi hj ((hl before i after rfl).2 ⟨hjl, hjb, havail⟩)

/-- Of two orders that agree in front, one that always takes the record of the least key and
one that only respects dependencies, the first has the smaller keys. -/
theorem least_or_equal {order other : List Record} (ha : Ascending records) (hp : order ~ records)
    (hl : ∀ front x rest, order = front ++ x :: rest → ∀ y ∈ records, y ∉ front →
      Satisfied records front y → keyOf x ≤ keyOf y)
    (ht : Topological records other) (front rest rest' : List Record)
    (ho : order = front ++ rest) (ho' : other = front ++ rest') :
    rest' = rest ∨ rest.map keyOf < rest'.map keyOf := by
  have hlen : rest'.length = rest.length := by
    have h := (ht.perm.trans hp.symm).length_eq
    rw [ho, ho', List.length_append, List.length_append] at h
    omega
  induction rest generalizing front rest' with
  | nil => exact Or.inl (List.length_eq_zero_iff.mp hlen)
  | cons x xs ih =>
    obtain ⟨y, ys, rfl⟩ := List.exists_cons_of_length_pos (l := rest') (by simp [hlen])
    have hy : y ∈ other := by simp [ho']
    have hnd : (front ++ y :: ys).Nodup := ho' ▸ ht.perm.nodup_iff.mpr ha.nodup
    have hyf : y ∉ front := fun hm => List.disjoint_of_nodup_append hnd hm (by simp)
    have hle := hl front x xs ho y (ht.perm.mem_iff.mp hy) hyf (ht.satisfied front y ys ho')
    -- where the two part, the first one has taken the smaller key
    rcases eq_or_lt_of_le hle with he | hlt
    · have hx : x ∈ order := by simp [ho]
      obtain rfl := ha.eq_of_key (hp.mem_iff.mp hx) (ht.perm.mem_iff.mp hy) he
      have h := ih (front ++ [x]) ys (by simp [ho]) (by simp [ho']) (by simpa using hlen)
      rcases h with rfl | h
      · exact Or.inl rfl
      · exact Or.inr (List.Lex.cons h)
    · exact Or.inr (List.Lex.rel hlt)

/-- An order holds each record of the registry once. -/
theorem resolve_perm (ha : Ascending records) {host : Option DeclaredVersion} {order : List Record}
    (h : resolve ⟨records⟩ host = .ok order) : order ~ records := by
  obtain ⟨_, nodes, hs, rfl⟩ := resolve_eq_ok h
  exact (select_sorted ha hs).1.perm

/-- What a record of a resolved order depends on stands in front of it and has the version that the
dependency asks for. -/
theorem dependency_met (ha : Ascending records) {host : Option DeclaredVersion}
    {front rest : List Record} {x : Record}
    (h : resolve ⟨records⟩ host = .ok (front ++ x :: rest)) {d : Dependency}
    (hd : d ∈ x.dependencies) : ∃ t, Names front d t ∧
      ∀ requirement, d.requirement = some requirement → meets t requirement = true := by
  obtain ⟨hf, nodes, hs, ho⟩ := resolve_eq_ok h
  have ht := (select_sorted ha hs).1
  rw [← ho] at ht
  have hx : x ∈ records := ht.perm.mem_iff.mp (by simp)
  obtain ⟨hmissing, hunmet, -⟩ := fault_eq_none_iff.mp hf
  obtain ⟨t, htarget⟩ := missing_eq_none_iff.mp (hmissing x hx) d hd
  have hn := names_of_target htarget
  have hfront : t ∈ front := ht.satisfied front x rest rfl d hd t hn
  exact ⟨t, ⟨hfront, hn.2⟩, unmet_eq_none_iff.mp (hunmet x hx) d hd t htarget⟩

/-- A resolved order has every record once, behind the ones it depends on, and always goes on with
the least key that can come next. So it has the least keys of all topological orders. -/
theorem resolve_least_order (inserted : List Record) (host : Option DeclaredVersion)
    (order : List Record) (h : (empty.insertAll inserted).1.resolve host = .ok order) :
    let records := (empty.insertAll inserted).1.records
    Topological records order ∧ order.Nodup ∧
      (∀ x ∈ records, ∀ d ∈ x.dependencies, ∃ t, Names records d t) ∧
      (∀ front x rest, order = front ++ x :: rest → ∀ y ∈ records, y ∉ front →
        Satisfied records front y → keyOf x ≤ keyOf y) ∧
      ∀ other, Topological records other → other = order ∨ order.map keyOf < other.map keyOf := by
  intro records
  have ha : Ascending records := ascending_insertAll inserted List.Pairwise.nil
  obtain ⟨hf, nodes, hs, rfl⟩ := resolve_eq_ok h
  obtain ⟨ht, hl⟩ := select_sorted ha hs
  refine ⟨ht, ht.perm.nodup_iff.mpr ha.nodup, ?_, hl, ?_⟩
  · intro x hx d hd
    obtain ⟨t, ht⟩ := missing_eq_none_iff.mp ((fault_eq_none_iff.mp hf).1 x hx) d hd
    exact ⟨t, names_of_target ht⟩
  · intro other ho
    exact least_or_equal ha ht.perm hl ho [] _ _ rfl rfl

def moduleNeeding (name : String) (needs : List String) (index : Nat) : Record :=
  ⟨name, true, none, none, needs.map fun d => ⟨d, none⟩, [], [], name, index, ""⟩

theorem resolve_needed_first :
    let inserted := [moduleNeeding "A" ["B", "b"] 0, moduleNeeding "B" [] 1]
    let records := (empty.insertAll inserted).1.records
    let order := [moduleNeeding "B" [] 1, moduleNeeding "A" ["B", "b"] 0]
    (empty.insertAll inserted).1.resolve none = .ok order ∧
      Topological records order ∧ order.Nodup ∧
      (∀ x ∈ records, ∀ d ∈ x.dependencies, ∃ t, Names records d t) ∧
      (∀ front x rest, order = front ++ x :: rest → ∀ y ∈ records, y ∉ front →
        Satisfied records front y → keyOf x ≤ keyOf y) ∧
      ∀ other, Topological records other → other = order ∨ order.map keyOf < other.map keyOf := by
  -- the two records are made opaque, so that only their keys and dependencies are computed with
  obtain ⟨a, ha⟩ : ∃ a, a = moduleNeeding "A" ["B", "b"] 0 := ⟨_, rfl⟩
  obtain ⟨b, hb⟩ : ∃ b, b = moduleNeeding "B" [] 1 := ⟨_, rfl⟩
  rw [← ha, ← hb]
  intro inserted records order
  have hak : keyOf a = "a" := by rw [ha]; exact nameKey_eq (by decide)
  have hbk : keyOf b = "b" := by rw [hb]; exact nameKey_eq (by decide)
  have had : a.dependencies = [⟨"B", none⟩, ⟨"b", none⟩] := by rw [ha]; rfl
  have hbd : b.dependencies = [] := by rw [hb]; rfl
  have hbr : b.registered = true := by rw [hb]; rfl
  have hne : "a" ≠ "b" := by decide
  have hlt : ¬ "b" < "a" := by rw [String.lt_iff_toList_lt]; decide
  have hins : empty.insertAll inserted = (⟨[a, b]⟩, []) := by
    simp only [inserted, insertAll, insert, place, empty, hak, hbk, hlt, hne.symm, if_false,
      Option.toList_none, List.append_nil]
  have htarget (d : Dependency) (hd : keyOf d = "b") :
      target? [a, b] d = some b ∧ targetIndex? [a, b] d = some 1 := by
    simp [target?, targetIndex?, hak, hbk, hd, hbr, hne, List.findIdx?_cons]
  have hupper : keyOf (⟨"B", none⟩ : Dependency) = "b" := nameKey_eq (by decide)
  have hlower : keyOf (⟨"b", none⟩ : Dependency) = "b" := nameKey_eq (by decide)
  have hfault : fault? [a, b] none = none := by
    simp [fault?, missingDependency?, unmetDependency?, had, hbd, htarget, hupper, hlower]
  have hgraph : graph [a, b] = [[1, 1], []] := by
    simp [graph, had, hbd, htarget, hupper, hlower]
  have hsort : Order.sort [[1, 1], []] = .ok [1, 0] := by rfl
  have h : (empty.insertAll inserted).1.resolve none = .ok order := by
    simp only [hins, resolve, hfault, hgraph, hsort]
    rfl
  exact ⟨h, resolve_least_order _ _ _ h⟩

end Registry

end Overlay
