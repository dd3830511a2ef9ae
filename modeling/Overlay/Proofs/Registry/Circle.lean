import Overlay.Proofs.Order.Cycle
import Overlay.Proofs.Registry.Faults

namespace Overlay.Registry

/-- Records in a circle, each of which depends on the next and the last on the first. No key comes
twice, and the first record has the least. -/
structure Circle (records : List Record) (x : Record) (rest : List Record) : Prop where
  chain : List.IsChain (Needs records) (x :: rest ++ [x])
  nodup : ((x :: rest).map keyOf).Nodup
  least : ∀ y ∈ rest, keyOf x < keyOf y

variable {records : List Record}

/-- The nodes of the graph are the places of the records. -/
theorem requires_lt (ha : Ascending records) (i k : Nat)
    (hk : k ∈ Order.requires (graph records) i) : k < (graph records).length := by
  have hlength : (graph records).length = records.length := by simp [graph]
  cases hi : records[i]? with
  | none => simp [Order.requires, graph, hi] at hk
  | some x =>
    rw [requires_graph hi] at hk
    obtain ⟨d, -, ht⟩ := List.mem_filterMap.mp hk
    obtain ⟨t, hkt, -⟩ := (targetIndex_eq_some ha).mp ht
    rw [hlength]
    exact (List.getElem?_eq_some_iff.mp hkt).1

/-- A requirement between nodes is a dependency between the records there. -/
theorem needs_of_requires (ha : Ascending records) {i k : Nat} {x y : Record}
    (hi : records[i]? = some x) (hk : records[k]? = some y)
    (h : Order.Requires (graph records) i k) : Needs records x y := by
  rw [Order.Requires, requires_graph hi] at h
  obtain ⟨d, hd, ht⟩ := List.mem_filterMap.mp h
  obtain ⟨t, hkt, hn⟩ := (targetIndex_eq_some ha).mp ht
  obtain rfl : t = y := Option.some.inj (hkt.symm.trans hk)
  exact ⟨List.mem_of_getElem? hi, d, hd, hn⟩

theorem key_lt_of_index_lt (ha : Ascending records) {i k : Nat} {x y : Record}
    (hi : records[i]? = some x) (hk : records[k]? = some y) (h : i < k) : keyOf x < keyOf y := by
  obtain ⟨hil, rfl⟩ := List.getElem?_eq_some_iff.mp hi
  obtain ⟨hkl, rfl⟩ := List.getElem?_eq_some_iff.mp hk
  exact List.pairwise_iff_getElem.mp ha i k hil hkl h

/-- Records in place of nodes. -/
theorem select_eq_map {nodes : List Nat} {recordAt : Nat → Record}
    (h : ∀ i ∈ nodes, records[i]? = some (recordAt i)) :
    select records nodes = nodes.map recordAt := by
  rw [select, ← List.filterMap_eq_map]
  exact List.filterMap_congr h

/-- A cycle of the graph with its least node in front is a circle of records. -/
theorem circle_of_cycle (ha : Ascending records) {i : Nat} {rest : List Nat}
    (hc : Order.Cycle (graph records) i rest) (hl : ∀ k ∈ rest, i < k) :
    ∃ x others, select records (i :: rest ++ [i]) = x :: others ++ [x] ∧
      Circle records x others := by
  have hlength : (graph records).length = records.length := by simp [graph]
  have hlt : ∀ k ∈ i :: rest, k < records.length := fun k hk => hlength ▸ hc.lt_length hk
  have hi : i < records.length := hlt i List.mem_cons_self
  let recordAt (k : Nat) : Record := records[k]?.getD records[i]
  have hat : ∀ k ∈ i :: rest, records[k]? = some (recordAt k) := by
    intro k hk
    simp [recordAt, List.getElem?_eq_getElem (hlt k hk)]
  have hclosed : ∀ k ∈ i :: rest ++ [i], records[k]? = some (recordAt k) := by
    intro k hk
    rcases List.mem_append.mp hk with hk | hk
    · exact hat k hk
    · exact List.mem_singleton.mp hk ▸ hat i List.mem_cons_self
  refine ⟨recordAt i, rest.map recordAt, ?_, ?_, ?_, ?_⟩
  · rw [select_eq_map hclosed, List.map_append]
    rfl
  · have hneeds : List.IsChain (fun a b => Needs records (recordAt a) (recordAt b))
        (i :: rest ++ [i]) :=
      hc.chain.imp_of_mem_imp fun a b ha' hb hreq =>
        needs_of_requires ha (hclosed a ha') (hclosed b hb) hreq
    simpa using (List.isChain_map recordAt).mpr hneeds
  · -- different nodes have records of different keys
    have hkeys : ((i :: rest).map (keyOf ∘ recordAt)).Nodup := by
      apply hc.nodup.map_on
      intro a ha' b hb heq
      rcases Nat.lt_trichotomy a b with hab | hab | hab
      · exact absurd heq (ne_of_lt (key_lt_of_index_lt ha (hat a ha') (hat b hb) hab))
      · exact hab
      · exact absurd heq.symm (ne_of_lt (key_lt_of_index_lt ha (hat b hb) (hat a ha') hab))
    rwa [← List.map_map] at hkeys
  · intro y hy
    obtain ⟨k, hk, rfl⟩ := List.mem_map.mp hy
    exact key_lt_of_index_lt ha (hat i List.mem_cons_self) (hat k (List.mem_cons_of_mem i hk))
      (hl k hk)

/-- A fault of a single record is no cycle. -/
theorem fault_ne_cycle (records : List Record) (host : Option DeclaredVersion)
    (identities : List String) : fault? records host ≠ some (.cycle identities) := by
  -- each of the three checks has a fault of its own
  have hmissing (x : Record) : missingDependency? records x ≠ some (.cycle identities) := by
    intro h
    obtain ⟨d, -, hd⟩ := List.exists_of_findSome?_eq_some h
    split at hd <;> simp at hd
  have hunmet (x : Record) : unmetDependency? records x ≠ some (.cycle identities) := by
    intro h
    obtain ⟨d, -, hd⟩ := List.exists_of_findSome?_eq_some h
    split at hd
    · split_ifs at hd
      simp at hd
    · simp at hd
  have hhost (v : DeclaredVersion) (x : Record) : unmetHost? v x ≠ some (.cycle identities) := by
    intro h
    obtain ⟨required, -, hr⟩ := Option.bind_eq_some_iff.mp h
    split_ifs at hr
    simp at hr
  intro h
  rw [fault?] at h
  simp only [Option.orElse_eq_orElse, Option.orElse_eq_or, Option.or_eq_some_iff] at h
  rcases h with h | ⟨-, h | ⟨-, h⟩⟩
  · obtain ⟨x, -, hx⟩ := List.exists_of_findSome?_eq_some h
    exact hmissing x hx
  · obtain ⟨x, -, hx⟩ := List.exists_of_findSome?_eq_some h
    exact hunmet x hx
  · obtain ⟨v, -, hv⟩ := Option.bind_eq_some_iff.mp h
    obtain ⟨x, -, hx⟩ := List.exists_of_findSome?_eq_some hv
    exact hhost v x hx

/-- A cycle that is reported is one: it names records in a circle, each of which depends on the
next, from the one of the least key back to it, and no other twice. -/
theorem reported_cycle (inserted : List Record) (host : Option DeclaredVersion)
    (identities : List String)
    (h : (empty.insertAll inserted).1.resolve host = .error (.cycle identities)) :
    ∃ x rest, identities = (x :: rest ++ [x]).map Record.identity ∧
      Circle (empty.insertAll inserted).1.records x rest := by
  have ha : Ascending (empty.insertAll inserted).1.records :=
    ascending_insertAll inserted List.Pairwise.nil
  rw [resolve] at h
  cases hf : fault? (empty.insertAll inserted).1.records host with
  | some e =>
    simp only [hf, Except.error.injEq] at h
    exact absurd (h ▸ hf) (fault_ne_cycle _ _ _)
  | none =>
    cases hs : Order.sort (graph (empty.insertAll inserted).1.records) with
    | ok nodes => simp [hf, hs] at h
    | error nodes =>
      simp only [hf, hs, Except.error.injEq, ResolveError.cycle.injEq] at h
      obtain ⟨i, rest, rfl, hc, hl⟩ := Order.cycle_of_sort (requires_lt ha) hs
      obtain ⟨x, others, hselect, hcircle⟩ := circle_of_cycle ha hc hl
      exact ⟨x, others, by rw [← h, hselect], hcircle⟩

/-- A record in front of a circle is no part of it. -/
theorem reported_cycle_behind :
    let inserted := [moduleNeeding "A" ["B"] 0, moduleNeeding "B" ["C"] 1,
      moduleNeeding "C" ["b"] 2]
    let records := (empty.insertAll inserted).1.records
    (empty.insertAll inserted).1.resolve none = .error (.cycle ["B", "C", "B"]) ∧
      ∃ x rest, ["B", "C", "B"] = (x :: rest ++ [x]).map Record.identity ∧
        Circle records x rest := by
  -- the records are made opaque, so that only their keys and dependencies are computed with
  obtain ⟨a, ha⟩ : ∃ a, a = moduleNeeding "A" ["B"] 0 := ⟨_, rfl⟩
  obtain ⟨b, hb⟩ : ∃ b, b = moduleNeeding "B" ["C"] 1 := ⟨_, rfl⟩
  obtain ⟨c, hc⟩ : ∃ c, c = moduleNeeding "C" ["b"] 2 := ⟨_, rfl⟩
  rw [← ha, ← hb, ← hc]
  intro inserted records
  have hak : keyOf a = "a" := by rw [ha]; exact nameKey_eq (by decide)
  have hbk : keyOf b = "b" := by rw [hb]; exact nameKey_eq (by decide)
  have hck : keyOf c = "c" := by rw [hc]; exact nameKey_eq (by decide)
  have had : a.dependencies = [⟨"B", none⟩] := by rw [ha]; rfl
  have hbd : b.dependencies = [⟨"C", none⟩] := by rw [hb]; rfl
  have hcd : c.dependencies = [⟨"b", none⟩] := by rw [hc]; rfl
  have hbc : b.registered = true ∧ c.registered = true := by rw [hb, hc]; exact ⟨rfl, rfl⟩
  have hupper : keyOf (⟨"B", none⟩ : Dependency) = "b" := nameKey_eq (by decide)
  have hother : keyOf (⟨"C", none⟩ : Dependency) = "c" := nameKey_eq (by decide)
  have hlower : keyOf (⟨"b", none⟩ : Dependency) = "b" := nameKey_eq (by decide)
  have hba : ¬ "b" < "a" := by rw [String.lt_iff_toList_lt]; decide
  have hca : ¬ "c" < "a" := by rw [String.lt_iff_toList_lt]; decide
  have hcb : ¬ "c" < "b" := by rw [String.lt_iff_toList_lt]; decide
  have hins : empty.insertAll inserted = (⟨[a, b, c]⟩, []) := by
    simp [inserted, insertAll, insert, place, empty, hak, hbk, hck, hba, hca, hcb]
  have hfault : fault? [a, b, c] none = none := by
    simp [fault?, missingDependency?, unmetDependency?, target?, had, hbd, hcd, hak, hbk, hck, hbc,
      hupper, hother, hlower]
  have hgraph : graph [a, b, c] = [[1], [2], [1]] := by
    simp [graph, targetIndex?, List.findIdx?_cons, had, hbd, hcd, hak, hbk, hck, hbc, hupper,
      hother, hlower]
  have hsort : Order.sort [[1], [2], [1]] = .error [1, 2, 1] := by rfl
  have h : (empty.insertAll inserted).1.resolve none = .error (.cycle ["B", "C", "B"]) := by
    simp only [hins, resolve, hfault, hgraph, hsort]
    rw [hb, hc]
    rfl
  exact ⟨h, reported_cycle _ _ _ h⟩

end Overlay.Registry
