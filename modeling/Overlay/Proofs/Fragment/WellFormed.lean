import Overlay.Proofs.Fragment

namespace Overlay

def Roster.Distinct {α : Type} [Named α] (members : List α) : Prop :=
  members.Pairwise fun a b => nameKey (Named.name a) ≠ nameKey (Named.name b)

theorem Roster.distinct_iff {α : Type} [Named α] {members : List α} :
    Distinct members ↔ (keys members).Nodup := List.pairwise_map.symm

def Value.scalars : Value → List Scalar
  | scalar s => [s]
  | array items => items

structure Property.WellFormed (p : Property) : Prop where
  name : IsName p.name
  append : p.append = true → ∃ items, p.value = .array items
  lines : ∀ value, .text value ∈ p.value.scalars → '\n' ∉ value.toList

structure Declaration.WellFormed (d : Declaration) : Prop where
  name : IsName d.name
  base : ∀ b ∈ d.base, IsName b
  forward : d.isForward = true → d.base = none ∧ d.properties = [] ∧ d.children = []
  properties : ∀ p ∈ d.properties, p.WellFormed
  distinctProperties : Roster.Distinct d.properties
  distinctChildren : Roster.Distinct d.children

/-- The classes of a forest, those inside others too. -/
inductive Forest.Contains : Forest → Declaration → Prop
  | here {forest : Forest} {d : Declaration} (hd : d ∈ forest) : Contains forest d
  | inside {forest : Forest} {outer d : Declaration} (ho : outer ∈ forest)
      (hd : Contains outer.children d) : Contains forest d

theorem Value.Proper.scalars {v : Value} (h : v.Proper) : ∀ s ∈ v.scalars, s.Proper := by
  cases v with
  | scalar s =>
    intro s' hs
    rw [List.mem_singleton.mp hs]
    exact h
  | array items => exact h

theorem Property.Proper.wellFormed {p : Property} (h : p.Proper) : p.WellFormed := by
  refine ⟨h.name, ?_, ?_⟩
  · intro happend
    have harray := h.append happend
    cases hv : p.value with
    | scalar s => simp [hv, Value.isArray] at harray
    | array items => exact ⟨items, rfl⟩
  · intro value hm
    exact h.value.scalars _ hm

namespace Declaration

variable {d : Declaration}

theorem Proper.children (h : d.Proper) : Forest.Proper d.children := by
  cases h with
  | forward hn => exact Forest.proper_nil
  | body hn hb hp hpk hc hck => exact ⟨hc, hck⟩

theorem Proper.wellFormed (h : d.Proper) : d.WellFormed := by
  have hchildren : Roster.Distinct d.children := Roster.distinct_iff.mpr h.children.keys
  cases h with
  | forward hn => exact ⟨hn, by simp [base], fun _ => ⟨rfl, rfl, rfl⟩, by simp [properties],
      .nil, hchildren⟩
  | body hn hb hp hpk hc hck =>
    have hproperties := Roster.distinct_iff.mpr hpk
    exact ⟨hn, hb, nofun, fun p hm => (hp p hm).wellFormed, hproperties, hchildren⟩

end Declaration

namespace Forest

variable {forest : Forest} {d : Declaration}

/-- In a proper forest the classes at all levels are proper. -/
theorem Proper.contains (h : forest.Proper) (hd : forest.Contains d) : d.Proper := by
  -- on the way into the forest: what is inside a proper class is a proper forest again
  induction hd with
  | here hd => exact h.all _ hd
  | inside ho _ ih => exact ih (h.all _ ho).children

/-- Whatever a text is parsed to is well formed at every level. -/
theorem wellFormed_of_parse {text : String} (h : Fragment.parse text = .ok forest) :
    Roster.Distinct forest ∧ ∀ d, forest.Contains d → d.WellFormed := by
  have hproper := Fragment.proper_of_parse h
  exact ⟨Roster.distinct_iff.mpr hproper.keys, fun d hd => (hproper.contains hd).wellFormed⟩

/-- A class that is announced and has two bodies, in which everything is declared in two ways. -/
theorem wellFormed_of_parse_again : ∃ forest,
    Fragment.parse "class A;class A{x=1;class C;};class A:B{X[]+={true};class C{};};" =
      .ok forest ∧
    (forest.map fun d => (d.name, d.base, d.children.map Declaration.name)) =
      [("A", some "B", ["C"])] ∧
    (forest.flatMap fun d => d.properties.map fun p => (p.name, p.value, p.append)) =
      [("x", .array [.flag true], true)] ∧
    Roster.Distinct forest ∧ ∀ d, forest.Contains d → d.WellFormed := by
  obtain ⟨forest, hforest, htest⟩ : ∃ forest,
      Fragment.parse "class A;class A{x=1;class C;};class A:B{X[]+={true};class C{};};" =
        .ok forest ∧
      decide ((forest.map fun d => (d.name, d.base, d.children.map Declaration.name)) =
          [("A", some "B", ["C"])] ∧
        (forest.flatMap fun d => d.properties.map fun p => (p.name, p.value, p.append)) =
          [("x", .array [.flag true], true)]) = true :=
    Attempt.exists_ok (by decide +kernel)
  obtain ⟨hclasses, hproperties⟩ := of_decide_eq_true htest
  exact ⟨forest, hforest, hclasses, hproperties, wellFormed_of_parse hforest⟩

end Forest

end Overlay
