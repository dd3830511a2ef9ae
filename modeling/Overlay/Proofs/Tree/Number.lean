import Overlay.Proofs.Number.Double
import Overlay.Proofs.Tree.Json
import Overlay.Proofs.Tree.Query

namespace Overlay
open Number (IsLiteral Unread)
open Attempt (bind_eq_ok)

namespace Json

def member? (name : String) : Json → Option Json
  | object members => members.lookup name
  | _ => none

def at? (j : Json) : List String → Option Json
  | [] => some j
  | name :: names => (j.member? name).bind fun inner => inner.at? names

def IsNumber : Json → Prop
  | integer _ => True
  | float _ => True
  | _ => False

variable {j inner : Json} {names : List String}

/-- What names lead to goes on with what further names lead to from there. -/
theorem at_append (more : List String) (h : j.at? names = some inner) :
    j.at? (names ++ more) = inner.at? more := by
  induction names generalizing j with
  | nil => rw [← Option.some.inj h, List.nil_append]
  | cons name names ih =>
    obtain ⟨next, hnext, h⟩ := Option.bind_eq_some_iff.mp h
    rw [List.cons_append, at?, hnext, Option.bind_some, ih h]

/-- Of members under names that all differ each one is found. -/
theorem member_object {members : List (String × Json)} {name : String}
    (hn : (members.map Prod.fst).Nodup) (hm : (name, j) ∈ members) :
    (object members).member? name = some j := by
  rw [member?]
  induction members with
  | nil => simp at hm
  | cons entry rest ih =>
    obtain ⟨other, value⟩ := entry
    obtain ⟨hother, hrest⟩ := List.nodup_cons.mp hn
    rcases List.mem_cons.mp hm with heq | hlater
    · obtain ⟨rfl, rfl⟩ := Prod.mk.inj heq
      rw [List.lookup_cons_self]
    · have hne : name ≠ other := by
        rintro rfl
        exact hother (List.mem_map.mpr ⟨(name, j), hlater, rfl⟩)
      rw [List.lookup_cons, beq_eq_false_iff_ne.mpr hne]
      exact ih hrest hlater

/-- What is listed under a member is found behind it by its own name. -/
theorem at_listed {α : Type} {xs : List α} {x : α} {name : α → String} {value : α → Json}
    {group : String} (hg : j.member? group = some (.object (xs.map fun x => (name x, value x))))
    (hn : (xs.map name).Nodup) (hx : x ∈ xs) : j.at? [group, name x] = some (value x) := by
  have hnames : ((xs.map fun x => (name x, value x)).map Prod.fst).Nodup := by
    rw [List.map_map]
    exact hn
  have hfound := member_object hnames (List.mem_map.mpr ⟨x, hx, rfl⟩)
  rw [at?, hg, Option.bind_some, at?, hfound]
  rfl

end Json

namespace Class

variable {c d : Class} {names : List String} {v : Value}

/-- The classes inside a class are members of its JSON, each once. -/
theorem member_classes (h : c.Ordered) : c.json.member? "classes" =
    some (.object (c.children.map fun d => (d.name, d.json))) := by
  rw [h.json_eq]
  rfl

theorem member_properties (h : c.Ordered) : c.json.member? "properties" =
    some (.object (c.properties.map fun m => (m.name, m.value.json))) := by
  rw [h.json_eq]
  rfl

/-- Each step into a class goes through the member of the classes. -/
theorem at_child (h : c.Ordered) (hd : d ∈ c.children) :
    c.json.at? ["classes", d.name] = some d.json :=
  Json.at_listed (member_classes h) h.child_names hd

theorem at_property (h : c.Ordered) {m : Member} (hm : m ∈ c.properties) :
    c.json.at? ["properties", m.name] = some m.value.json :=
  Json.at_listed (member_properties h) h.property_names hm

/-- Where names lead to a class, members lead to its JSON. -/
theorem at_reached (h : c.Ordered) (hd : c.Reaches names d) :
    ∃ spelled : List String, spelled.map nameKey = names.map nameKey ∧
      c.json.at? (spelled.flatMap fun name => ["classes", name]) = some d.json := by
  -- on the way to the class: each step enters the object of a child by its own spelling
  induction hd with
  | here => exact ⟨[], rfl, rfl⟩
  | @inside c d e name names hm hk _ ih =>
    obtain ⟨spelled, hnames, hat⟩ := ih (h.children d hm).ordered
    refine ⟨d.name :: spelled, ?_, ?_⟩
    · rw [List.map_cons, List.map_cons, hk, hnames]
    · rw [List.flatMap_cons, Json.at_append _ (at_child h hm), hat]

/-- A property is found in JSON under the names as they are spelled in the tree. -/
theorem at_held (h : c.Ordered) (hv : c.Holds names v) :
    ∃ (classes : List String) (last : String),
      (classes ++ [last]).map nameKey = names.map nameKey ∧
      c.json.at? ((classes.flatMap fun name => ["classes", name]) ++ ["properties", last]) =
        some v.json := by
  obtain ⟨front, last, d, rfl, hd, m, hm, hk, rfl⟩ := hv
  obtain ⟨classes, hnames, hat⟩ := at_reached h hd
  refine ⟨classes, m.name, ?_, ?_⟩
  · rw [List.map_append, List.map_append, hnames, List.map_singleton, List.map_singleton, hk]
  · rw [Json.at_append _ hat, at_property (hd.ordered h) hm]

theorem proper_of_holds (h : c.Ordered) (hv : c.Holds names v) : v.Proper := by
  obtain ⟨front, last, d, rfl, hd, m, hm, hk, rfl⟩ := hv
  exact ((hd.ordered h).properties m hm).value

end Class

namespace Scalar

variable {literal : String} {d : Number.Double}

theorem json_of_unread (h : IsLiteral literal.toList) (hu : Unread literal.toList) :
    (number literal).json = .text literal := by
  have hinteger : Number.integer? literal = none := by
    rw [Option.eq_none_iff_forall_ne_some]
    intro n hn
    exact ((Number.integer_eq_some_iff h).mp hn).2.2 hu
  have hdouble := (Number.double_eq_none_iff h).mpr hu
  simp only [json, hinteger, hdouble]

/-- A literal that is read becomes a number, unless it is too large for a floating-point number. -/
theorem isNumber_json (h : IsLiteral literal.toList) (hd : Number.double? literal = some d) :
    (number literal).json.IsNumber ↔ ∀ negative, d ≠ .infinite negative := by
  cases hi : Number.integer? literal with
  | some n =>
    -- written as a whole number, which as a floating-point number is finite too
    have hfinite := Number.isFinite_of_integer h hi hd
    simp only [json, hi, Json.IsNumber, true_iff]
    rintro negative rfl
    exact absurd hfinite Bool.false_ne_true
  | none =>
    simp only [json, hi, hd]
    rcases Number.double_cases h hd with hfinite | ⟨negative, rfl⟩
    · rw [if_pos hfinite]
      refine iff_of_true trivial ?_
      rintro negative rfl
      exact absurd hfinite Bool.false_ne_true
    · refine iff_of_false ?_ fun hne => hne negative rfl
      rw [if_neg (by simp [Number.Double.isFinite])]
      exact id

end Scalar

namespace Tree

variable {t : Tree} {path : String}

/-- The members that lead to a property in the JSON of a tree. -/
def memberPath (classes : List String) (last : String) : List String :=
  classes.intersperse "classes" ++ ["properties", last]

theorem memberPath_eq {classes : List String} (hn : classes ≠ []) (last : String) :
    "classes" :: memberPath classes last =
      (classes.flatMap fun name => ["classes", name]) ++ ["properties", last] := by
  have hclasses : "classes" :: classes.intersperse "classes" =
      classes.flatMap fun name => ["classes", name] := by
    induction classes with
    | nil => exact absurd rfl hn
    | cons name more ih =>
      cases more with
      | nil => rfl
      | cons next more =>
        rw [List.intersperse_cons_cons, List.flatMap_cons, ← ih (List.cons_ne_nil _ _)]
        rfl
  rw [memberPath, ← List.cons_append, hclasses]

theorem at_held (h : t.Proper) {names : List String} {v : Value} (hv : t.root.Holds names v) :
    ∃ (classes : List String) (last : String),
      (classes ++ [last]).map nameKey = names.map nameKey ∧
      t.json.at? (memberPath classes last) = some v.json := by
  obtain ⟨classes, last, hnames, hat⟩ := Class.at_held h.root hv
  have hinside : classes ≠ [] := by
    -- the root has no properties of its own
    rintro rfl
    rw [List.flatMap_nil, List.nil_append, Json.at?, Class.member_properties h.root,
      h.head.properties] at hat
    exact absurd hat (by simp [Json.at?, Json.member?, Class.empty])
  refine ⟨classes, last, hnames, ?_⟩
  rw [← memberPath_eq hinside, Json.at?, Class.member_classes h.root, Option.bind_some] at hat
  rwa [json_eq h.root]

theorem getNumber_eq {literal : String} (h : t.get path = .ok (.scalar (.number literal))) :
    t.getNumber path = ofKind path .number (Number.double? literal) := by
  rw [getNumber, h]
  rfl

/-- A literal that is asked for as a number is one, and in JSON it is one if it is not infinite.
But the unread hexadecimal literals are no numbers, and texts in JSON. -/
theorem getNumber_literal (fragments : List (String × Forest)) (t : Tree)
    (hf : ∀ f ∈ fragments, ∃ text, Fragment.parse text = .ok f.2)
    (hm : merge fragments = .ok t) (path literal : String)
    (hg : t.get path = .ok (.scalar (.number literal))) :
    ∃ (classes : List String) (last : String) (j : Json),
      (classes ++ [last]).map nameKey = (namesIn path).map nameKey ∧
      t.json.at? (memberPath classes last) = some j ∧
      (¬Unread literal.toList → ∃ d, t.getNumber path = .ok d ∧
        (j.IsNumber ↔ ∀ negative, d ≠ .infinite negative)) ∧
      (Unread literal.toList → t.getNumber path = .error (.mismatch path .number) ∧
        j = .text literal) := by
  have hproper := proper_of_parsed hf hm
  have hanswers := answers_of_ordered hproper.root path
  have hlookup := (get_eq_ok_iff t path _).mp hg
  have hvalid : "" ∉ namesIn path := by
    -- with an empty name the path would be invalid, but something was found
    intro hbad
    rw [hanswers.invalid.mpr hbad] at hlookup
    exact absurd hlookup (by simp)
  have hv := (hanswers.value hvalid _).mp hlookup
  have hliteral : IsLiteral literal.toList := Class.proper_of_holds hproper.root hv
  obtain ⟨classes, last, hnames, hat⟩ := at_held hproper hv
  refine ⟨classes, last, _, hnames, hat, ?_, ?_⟩
  · intro hread
    obtain ⟨d, hd⟩ := Option.ne_none_iff_exists'.mp
      (mt (Number.double_eq_none_iff hliteral).mp hread)
    refine ⟨d, ?_, Scalar.isNumber_json hliteral hd⟩
    rw [getNumber_eq hg, hd]
    rfl
  · intro hunread
    refine ⟨?_, Scalar.json_of_unread hliteral hunread⟩
    rw [getNumber_eq hg, (Number.double_eq_none_iff hliteral).mpr hunread]
    rfl

def measured : Tree := ⟨⟨"", none, [], [⟨"A", none, [⟨"x", .scalar (.number ".5e3")⟩,
  ⟨"y", .scalar (.number "+0x10")⟩, ⟨"z", .scalar (.number "0xFFFFFFFFFFFFFFFF")⟩], []⟩]⟩⟩

theorem merge_measured : ∃ forest,
    Fragment.parse "class A{x=.5e3;y=+0x10;z=0xFFFFFFFFFFFFFFFF;};" = .ok forest ∧
    merge [("core.cpp", forest)] = .ok measured := by
  obtain ⟨forest, hforest, htest⟩ : ∃ forest,
      Fragment.parse "class A{x=.5e3;y=+0x10;z=0xFFFFFFFFFFFFFFFF;};" = .ok forest ∧
        decide (merge [("core.cpp", forest)] = .ok measured) = true :=
    Attempt.exists_ok (by decide +kernel)
  exact ⟨forest, hforest, of_decide_eq_true htest⟩

theorem getNumber_literal_decimal : ∃ forest,
    Fragment.parse "class A{x=.5e3;y=+0x10;z=0xFFFFFFFFFFFFFFFF;};" = .ok forest ∧
    merge [("core.cpp", forest)] = .ok measured ∧
    measured.get " A . x" = .ok (.scalar (.number ".5e3")) ∧
    ∃ d, measured.getNumber " A . x" = .ok d := by
  obtain ⟨forest, hforest, hmerge⟩ := merge_measured
  have hget : measured.get " A . x" = .ok (.scalar (.number ".5e3")) := by
    decide +kernel
  have hread : ¬Unread ".5e3".toList := by
    rw [← Number.double_eq_none_iff (by decide +kernel)]
    decide +kernel
  obtain ⟨classes, last, j, -, -, hnumber, -⟩ := getNumber_literal [("core.cpp", forest)] measured
    (List.forall_mem_singleton.mpr ⟨_, hforest⟩) hmerge " A . x" ".5e3" hget
  obtain ⟨d, hd, -⟩ := hnumber hread
  exact ⟨forest, hforest, hmerge, hget, d, hd⟩

/-- A literal with a plus, and one that as a number is about `1.8e19`. -/
theorem getNumber_missed : ∃ forest,
    Fragment.parse "class A{x=.5e3;y=+0x10;z=0xFFFFFFFFFFFFFFFF;};" = .ok forest ∧
    merge [("core.cpp", forest)] = .ok measured ∧
    measured.get "A.y" = .ok (.scalar (.number "+0x10")) ∧
    measured.getNumber "A.y" = .error (.mismatch "A.y" .number) ∧
    measured.json.at? ["A", "properties", "y"] = some (.text "+0x10") ∧
    measured.get "A.z" = .ok (.scalar (.number "0xFFFFFFFFFFFFFFFF")) ∧
    measured.getNumber "A.z" = .error (.mismatch "A.z" .number) ∧
    measured.json.at? ["A", "properties", "z"] = some (.text "0xFFFFFFFFFFFFFFFF") := by
  obtain ⟨forest, hforest, hmerge⟩ := merge_measured
  exact ⟨forest, hforest, hmerge, by decide +kernel, by decide +kernel, rfl, by decide +kernel,
    by decide +kernel, rfl⟩

end Tree

end Overlay
