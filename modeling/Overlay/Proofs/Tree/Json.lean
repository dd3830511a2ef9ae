import Overlay.Proofs.Tree
import Overlay.Tree.Json

namespace Overlay

namespace Entries

variable {α : Type} {name : String} {value : α} {entries known : List (String × α)}

theorem put_of_new (h : name ∉ known.map Prod.fst) :
    put name value known = known ++ [(name, value)] := by
  induction known with
  | nil => rfl
  | cons entry rest ih =>
    rw [List.map_cons, List.mem_cons, not_or] at h
    rw [put, if_neg (Ne.symm h.1), ih h.2, List.cons_append]

/-- Entries under names that all differ stay as they are. -/
theorem ofList_of_nodup (h : (entries.map Prod.fst).Nodup) : ofList entries = entries := by
  let step (known : List (String × α)) (entry : String × α) := put entry.1 entry.2 known
  have hfold (entries known : List (String × α)) (h : ((known ++ entries).map Prod.fst).Nodup) :
      entries.foldl step known = known ++ entries := by
    -- each entry is new to those that have been put in, so it goes behind them
    induction entries generalizing known with
    | nil => rw [List.foldl_nil, List.append_nil]
    | cons entry rest ih =>
      have hnew : entry.1 ∉ known.map Prod.fst := by
        rw [List.map_append, List.map_cons] at h
        exact fun hm => List.disjoint_of_nodup_append h hm List.mem_cons_self
      have hput : step known entry = known ++ [entry] := put_of_new hnew
      calc (entry :: rest).foldl step known
          = step known entry ++ rest := ih _ (by rwa [hput, List.append_assoc])
        _ = known ++ entry :: rest := by rw [hput, List.append_assoc, List.singleton_append]
  exact hfold entries [] h

end Entries

/-- Where all names differ, an object has the members as they are listed. -/
theorem Json.ofMembers_of_nodup {members : List (String × Json)}
    (h : (members.map Prod.fst).Nodup) : ofMembers members = .object members := by
  rw [ofMembers, Entries.ofList_of_nodup h]

/-- Things with distinct names make an object in which all of them are members. -/
theorem Json.ofMembers_map {α : Type} {xs : List α} {name : α → String} {json : α → Json}
    (h : (xs.map name).Nodup) : ofMembers (xs.map fun x => (name x, json x)) =
      .object (xs.map fun x => (name x, json x)) := by
  apply ofMembers_of_nodup
  rw [List.map_map]
  exact h

theorem Json.forall₂_map {α : Type} {told : α → Json → Prop} {json : α → Json} {xs : List α}
    (h : ∀ x ∈ xs, told x (json x)) : List.Forall₂ told xs (xs.map json) :=
  List.forall₂_map_right_iff.mpr (List.forall₂_same.mpr h)

def Scalar.Told : Scalar → Json → Prop
  | .text value, j => j = .text value
  | .flag value, j => j = .bool value
  | .number literal, j => match Scalar.integer? (.number literal) with
    | some n => j = .integer n
    | none => j = .text literal ∨ ∃ d, Scalar.double? (.number literal) = some d ∧ j = .float d

def Value.Told : Value → Json → Prop
  | .scalar s, j => s.Told j
  | .array items, j => ∃ js, j = .array js ∧ List.Forall₂ Scalar.Told items js

/-- Whether JSON tells a class: its base, and each property and each child once, under its name and
in its place. -/
inductive Class.Told : Class → Json → Prop
  | intro {name : String} {base : Option String} {properties : List Member}
      {children : List Class} {values classes : List Json}
      (hp : List.Forall₂ (fun m => Value.Told m.value) properties values)
      (hpn : (properties.map Member.name).Nodup)
      (hc : List.Forall₂ Told children classes) (hcn : (children.map Class.name).Nodup) :
      Told ⟨name, base, properties, children⟩ (.object [
        ("parent", base.elim .null .text),
        ("properties", .object ((properties.map Member.name).zip values)),
        ("classes", .object ((children.map Class.name).zip classes))])

def Tree.Told (t : Tree) (j : Json) : Prop :=
  ∃ classes, j = .object ((t.root.children.map Class.name).zip classes) ∧
    (t.root.children.map Class.name).Nodup ∧ List.Forall₂ Class.Told t.root.children classes

theorem Scalar.told_json (s : Scalar) : s.Told s.json := by
  cases s with
  | text value => rfl
  | flag value => rfl
  | number literal =>
    cases hi : Number.integer? literal with
    | some n => simp only [Told, json, Scalar.integer?, hi]
    | none =>
      simp only [Told, json, Scalar.integer?, Scalar.double?, hi]
      cases hd : Number.double? literal with
      | none => exact .inl rfl
      | some d =>
        simp only
        split_ifs
        · exact .inr ⟨d, rfl, rfl⟩
        · exact .inl rfl

theorem Value.told_json (v : Value) : v.Told v.json := by
  cases v with
  | scalar s => exact s.told_json
  | array items =>
    exact ⟨items.map Scalar.json, rfl, Json.forall₂_map fun s _ => s.told_json⟩

namespace Class

variable {c : Class}

theorem membersOf_eq (cs : List Class) : membersOf cs = cs.map fun c => (c.name, c.json) := by
  induction cs with
  | nil => rfl
  | cons c cs ih => rw [membersOf, List.map_cons, ih]

/-- The keys of properties differ, and so do their names. -/
theorem Ordered.property_names (h : c.Ordered) : (c.properties.map Member.name).Nodup := by
  apply List.Nodup.of_map nameKey
  rw [List.map_map]
  exact h.propertyKeys

theorem Ordered.child_names (h : c.Ordered) : (c.children.map Class.name).Nodup := by
  apply List.Nodup.of_map nameKey
  rw [List.map_map]
  exact h.childKeys

/-- All children of a class in order are members, in their places. -/
theorem Ordered.classes_json (h : c.Ordered) : Json.ofMembers (membersOf c.children) =
    .object (c.children.map fun d => (d.name, d.json)) := by
  rw [membersOf_eq, Json.ofMembers_map h.child_names]

/-- No member of the object of a class is lost. -/
theorem Ordered.json_eq (h : c.Ordered) : c.json = .object [
    ("parent", c.base.elim .null .text),
    ("properties", .object (c.properties.map fun m => (m.name, m.value.json))),
    ("classes", .object (c.children.map fun d => (d.name, d.json)))] := by
  have hproperties : Json.ofMembers (c.properties.map fun m => (m.name, m.value.json)) =
      .object (c.properties.map fun m => (m.name, m.value.json)) :=
    Json.ofMembers_map h.property_names
  have hclasses := h.classes_json
  obtain ⟨name, base, properties, children⟩ := c
  rw [json, hproperties, hclasses, Json.ofMembers_of_nodup (by simp)]
  cases base <;> rfl

/-- JSON tells a proper class, down to the innermost classes. -/
theorem told_json (h : c.Proper) : c.Told c.json := by
  -- on the class: its children are told by the hypotheses, so only its own members are left
  induction h with
  | @intro name base properties children hn hb hp hpk hc hck ih =>
    have hordered : Ordered ⟨name, base, properties, children⟩ := ⟨hp, hpk, hc, hck⟩
    rw [hordered.json_eq]
    simp only
    rw [← List.zip_map', ← List.zip_map']
    have hproperties := Json.forall₂_map fun (m : Member) (_ : m ∈ properties) => m.value.told_json
    exact .intro hproperties hordered.property_names (Json.forall₂_map ih) hordered.child_names

end Class

namespace Tree

variable {t : Tree}

theorem json_eq (h : t.root.Ordered) :
    t.json = .object (t.root.children.map fun c => (c.name, c.json)) := h.classes_json

/-- The JSON of a merged tree tells all that is in it. -/
theorem json_tells (fragments : List (String × Forest)) (t : Tree)
    (hf : ∀ f ∈ fragments, ∃ text, Fragment.parse text = .ok f.2)
    (hm : merge fragments = .ok t) : t.Told t.json := by
  have hproper := proper_of_parsed hf hm
  refine ⟨t.root.children.map Class.json, ?_, hproper.root.child_names, ?_⟩
  · rw [json_eq hproper.root, List.zip_map']
  · exact Json.forall₂_map fun c hc => Class.told_json (hproper.root.children c hc)

def takingOver : String :=
  "class A\x7bx[]=\x7b0x1F,\"a\",true\x7d;\x7d;class B:A\x7bX=-7;class C\x7b\x7d;\x7d;"

def renewed : Tree := ⟨⟨"", none, [], [
  ⟨"A", none, [⟨"x", .array [.number "0x1F", .text "a", .flag true]⟩], []⟩,
  ⟨"B", some "A", [⟨"x", .scalar (.number "-7")⟩], [⟨"C", none, [], []⟩]⟩]⟩⟩

theorem json_tells_renewed : ∃ forest, Fragment.parse takingOver = .ok forest ∧
    merge [("core.cpp", forest)] = .ok renewed ∧ renewed.Told renewed.json := by
  obtain ⟨forest, hforest, htest⟩ : ∃ forest, Fragment.parse takingOver = .ok forest ∧
      decide (merge [("core.cpp", forest)] = .ok renewed) = true :=
    Attempt.exists_ok (by decide +kernel)
  have hmerge := of_decide_eq_true htest
  have hparsed : ∀ f ∈ [("core.cpp", forest)], ∃ text, Fragment.parse text = .ok f.2 :=
    List.forall_mem_singleton.mpr ⟨_, hforest⟩
  exact ⟨forest, hforest, hmerge, json_tells [("core.cpp", forest)] renewed hparsed hmerge⟩

end Tree

end Overlay
