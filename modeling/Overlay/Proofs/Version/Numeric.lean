import Overlay.Proofs.Text.Split
import Overlay.Proofs.Version
import Mathlib.Algebra.Group.Nat.Defs

namespace Overlay.DeclaredVersion
open Attempt (bind_eq_ok pure_eq_ok)
open Number (Digits ofDigits)
open Text (Stops splitOn joinWith isBlank)
open Version (IsNumber Spells numberLimit)

structure IsComponent (part : List Char) : Prop where
  ne_nil : part ≠ []
  digits : ∀ c ∈ part, c.isDigit = true
  small : ofDigits 10 part < 2 ^ 64

def IsDotted (cs : List Char) : Prop := ∀ c ∈ cs, c.isDigit = true ∨ c = '.'

def parts (text : String) : List (List Char) := splitOn '.' text.toList

/-- Texts of one to three components. -/
structure IsNumeric (text : String) : Prop where
  few : (parts text).length ≤ 3
  components : ∀ part ∈ parts text, IsComponent part

/-- The values of the components, of which those that are missing are zero. -/
def number (text : String) (i : Nat) : Nat := ((parts text).map (ofDigits 10)).getD i 0

theorem isComponent_iff {part : List Char} : IsComponent part ↔
    (!part.isEmpty && part.all Char.isDigit && ofDigits 10 part < numberLimit) = true := by
  have hlimit : numberLimit = 2 ^ 64 := rfl
  rw [Bool.and_eq_true, Bool.and_eq_true, Bool.not_eq_true', List.isEmpty_eq_false_iff,
    List.all_eq_true, decide_eq_true_iff, hlimit]
  exact ⟨fun h => ⟨⟨h.ne_nil, h.digits⟩, h.small⟩, fun h => ⟨h.1.1, h.1.2, h.2⟩⟩

instance (part : List Char) : Decidable (IsComponent part) :=
  decidable_of_iff _ isComponent_iff.symm

instance (cs : List Char) : Decidable (IsDotted cs) :=
  decidable_of_iff (cs.all (fun c => c.isDigit || c == '.') = true) (by simp [IsDotted])

instance (text : String) : Decidable (IsNumeric text) :=
  decidable_of_iff ((parts text).length ≤ 3 ∧ ∀ part ∈ parts text, IsComponent part)
    ⟨fun h => ⟨h.1, h.2⟩, fun h => ⟨h.few, h.components⟩⟩

variable {text : String} {cs part : List Char} {ns : List Nat} {v : DeclaredVersion}

theorem isComponent_of_isNumber (h : IsNumber part) : IsComponent part :=
  ⟨h.ne_nil, h.digits, h.small⟩

/-- A component without a needless zero is a number of a version. -/
theorem IsComponent.isNumber (h : IsComponent part) (hz : Version.hasLeadingZero part = false) :
    IsNumber part :=
  ⟨h.digits, h.ne_nil, hz, h.small⟩

/-- A declared version is what is read of the text without the blanks around it. -/
theorem read_eq_ok : read text = .ok v ↔ v.raw = Text.trim text ∧ v.raw ≠ "" ∧
    Version.read (normalize v.raw.toList) = .ok v.version := by
  rw [read]
  split_ifs with he
  · rw [String.isEmpty_iff] at he
    constructor
    · intro h
      exact absurd h (by simp)
    · rintro ⟨hraw, hne, -⟩
      exact absurd (hraw.trans he) hne
  · rw [String.isEmpty_iff] at he
    obtain ⟨raw, version⟩ := v
    constructor
    · intro h
      obtain ⟨version', hr, h⟩ := bind_eq_ok.mp h
      obtain ⟨rfl, rfl⟩ := DeclaredVersion.mk.inj (pure_eq_ok.mp h)
      exact ⟨rfl, he, hr⟩
    · rintro ⟨rfl, -, hr⟩
      exact bind_eq_ok.mpr ⟨version, hr, rfl⟩

/-- The components are found in a text that consists of nothing else. -/
theorem components_eq_some : components? cs = some ns ↔
    (∀ part ∈ splitOn '.' cs, IsComponent part) ∧ ns = (splitOn '.' cs).map (ofDigits 10) := by
  -- one part is found exactly if it is a component
  have hpart (part : List Char) (n : Nat) : (if !part.isEmpty && part.all Char.isDigit &&
      ofDigits 10 part < numberLimit then some (ofDigits 10 part) else none) = some n ↔
      IsComponent part ∧ n = ofDigits 10 part := by
    rw [Option.ite_none_right_eq_some, isComponent_iff, Option.some_inj, eq_comm (a := n)]
  rw [components?]
  simp only
  induction splitOn '.' cs generalizing ns with
  | nil =>
    rw [List.mapM_nil, List.map_nil]
    constructor
    · intro h
      exact ⟨by simp, (Option.some.inj h).symm⟩
    · rintro ⟨-, rfl⟩
      rfl
  | cons part parts ih =>
    rw [List.mapM_cons, List.forall_mem_cons, List.map_cons]
    constructor
    · intro h
      obtain ⟨n, hn, h⟩ := Option.bind_eq_some_iff.mp h
      obtain ⟨more, hmore, h⟩ := Option.bind_eq_some_iff.mp h
      obtain ⟨hpart, rfl⟩ := (hpart part n).mp hn
      obtain ⟨hall, rfl⟩ := ih.mp hmore
      exact ⟨⟨hpart, hall⟩, (Option.some.inj h).symm⟩
    · rintro ⟨⟨hone, hall⟩, rfl⟩
      refine Option.bind_eq_some_iff.mpr ⟨_, (hpart part _).mpr ⟨hone, rfl⟩, ?_⟩
      exact Option.bind_eq_some_iff.mpr ⟨_, ih.mpr ⟨hall, rfl⟩, rfl⟩

theorem isDotted_joinWith {parts : List (List Char)} (h : ∀ part ∈ parts, Digits part) :
    IsDotted (joinWith '.' parts) := by
  induction parts with
  | nil => simp [IsDotted, joinWith]
  | cons part parts ih =>
    obtain ⟨hpart, h⟩ := List.forall_mem_cons.mp h
    have hdigits : IsDotted part := fun c hc => .inl (hpart c hc)
    cases parts with
    | nil => exact hdigits
    | cons next parts =>
      intro c hc
      rcases List.mem_append.mp hc with hc | hc
      · exact hdigits c hc
      · rcases List.mem_cons.mp hc with rfl | hc
        · exact .inr rfl
        · exact ih h c hc

theorem digits_numbers (ns : List Nat) :
    ∀ part ∈ ns.map fun n => (toString n).toList, Digits part := by
  intro part hp
  obtain ⟨n, -, rfl⟩ := List.mem_map.mp hp
  exact Number.digits_toString n

theorem splitOn_numbers (hn : ns ≠ []) :
    splitOn '.' (joinWith '.' (ns.map fun n => (toString n).toList)) =
      ns.map fun n => (toString n).toList := by
  apply Text.splitOn_joinWith
  · intro part hp hdot
    exact absurd (digits_numbers ns part hp '.' hdot) (by decide)
  · simpa using hn

/-- Behind the numbers of a version of digits and points there is nothing. -/
theorem parts_of_spells {version : Version} (h : Spells cs version) (hd : IsDotted cs) :
    ∃ a b c, splitOn '.' cs = [a, b, c] ∧ IsNumber a ∧ IsNumber b ∧ IsNumber c := by
  cases h with
  | @intro a b c suffix pre build ha hb hc hs hstop =>
    -- what follows is no digit, so it is a point, and with that no suffix starts
    have hsuffix : suffix = [] := by
      cases suffix with
      | nil => rfl
      | cons d ds =>
        have hdot : d = '.' := by
          refine (hd d (by simp)).resolve_left ?_
          rw [Text.stops_cons.mp hstop]
          exact Bool.false_ne_true
        subst hdot
        obtain ⟨last, rest, last', hpre, hbuild⟩ := hs
        obtain ⟨-, -, rfl⟩ := Except.ok.inj hpre
        exact absurd hbuild (by simp [Version.readMarked])
    subst hsuffix
    refine ⟨a, b, c, ?_, ha, hb, hc⟩
    have hdots : ∀ part ∈ [a, b, c], '.' ∉ part := by
      have hnumber (ds : List Char) (hds : IsNumber ds) : '.' ∉ ds :=
        fun hdot => absurd (hds.digits '.' hdot) (by decide)
      simp [hnumber a ha, hnumber b hb, hnumber c hc]
    have hsplit := Text.splitOn_joinWith hdots (by simp)
    rw [List.append_nil]
    exact hsplit

theorem isBlank_of_isDigit {c : Char} (h : c.isDigit = true) : isBlank c = false := by
  by_contra hb
  rw [Bool.not_eq_false] at hb
  have hrange := Text.toNat_of_isBlank hb
  rw [Number.isDigit_iff] at h
  omega

theorem IsDotted.trim_eq (hd : IsDotted text.toList) : Text.trim text = text := by
  rw [Text.trim, Text.trimChars_of_clean, String.ofList_toList]
  intro c hc
  rcases hd c hc with hdigit | rfl
  · exact isBlank_of_isDigit hdigit
  · decide

/-- The text of a declared version is read as that version again. -/
theorem read_raw (h : read text = .ok v) : read v.raw = .ok v := by
  obtain ⟨hraw, hne, hversion⟩ := read_eq_ok.mp h
  refine read_eq_ok.mpr ⟨?_, hne, hversion⟩
  rw [hraw, Text.trim, Text.trim, String.toList_ofList, Text.trimChars_trimChars]

theorem read_numbers {a b c : Nat} (ha : a < numberLimit) (hb : b < numberLimit)
    (hc : c < numberLimit) :
    Version.read (joinWith '.' ([a, b, c].map fun n => (toString n).toList)) =
      .ok ⟨a, b, c, [], []⟩ := by
  have h := Version.spells_numbers (Version.isNumber_toString ha) (Version.isNumber_toString hb)
    (Version.isNumber_toString hc)
  rw [Number.ofDigits_toString, Number.ofDigits_toString, Number.ofDigits_toString] at h
  exact Version.read_eq_ok.mpr h

theorem padded_eq (hn : ns ≠ []) (hl : ns.length ≤ 3) :
    ns ++ List.replicate (3 - ns.length) 0 = [ns.getD 0 0, ns.getD 1 0, ns.getD 2 0] := by
  match ns with
  | [a] => rfl
  | [a, b] => rfl
  | [a, b, c] => rfl

theorem parts_ne_nil (text : String) : parts text ≠ [] := Text.splitOn_ne_nil _ _

/-- A numeric text is made of one, two or three components. -/
theorem IsNumeric.forms (h : IsNumeric text) :
    (∃ a, IsComponent a ∧ parts text = [a] ∧ text.toList = a) ∨
    (∃ a b, IsComponent a ∧ IsComponent b ∧ parts text = [a, b] ∧ text.toList = a ++ '.' :: b) ∨
    ∃ a b c, IsComponent a ∧ IsComponent b ∧ IsComponent c ∧ parts text = [a, b, c] ∧
      text.toList = a ++ '.' :: (b ++ '.' :: c) := by
  have hfew := h.few
  have hall := h.components
  have htext : text.toList = joinWith '.' (parts text) := (Text.joinWith_splitOn '.' _).symm
  rw [htext]
  match hp : parts text with
  | [] => exact absurd hp (parts_ne_nil text)
  | [a] => exact .inl ⟨a, hall a (by simp [hp]), rfl, rfl⟩
  | [a, b] => exact .inr (.inl ⟨a, b, hall a (by simp [hp]), hall b (by simp [hp]), rfl, rfl⟩)
  | [a, b, c] =>
    exact .inr (.inr ⟨a, b, c, hall a (by simp [hp]), hall b (by simp [hp]), hall c (by simp [hp]),
      rfl, rfl⟩)
  | a :: b :: c :: d :: more =>
    rw [hp] at hfew
    exact absurd hfew (by simp)

theorem IsNumeric.isDotted (h : IsNumeric text) : IsDotted text.toList := by
  rw [← Text.joinWith_splitOn '.' text.toList]
  exact isDotted_joinWith fun part hp => (h.components part hp).digits

theorem IsNumeric.number_lt (h : IsNumeric text) (i : Nat) : number text i < numberLimit := by
  rw [number, List.getD_eq_getElem?_getD, List.getElem?_map]
  cases hp : (parts text)[i]? with
  | none => exact Number.twoTo_pos 64
  | some part => exact (h.components part (List.mem_of_getElem? hp)).small

/-- A text of one to three components is a version. -/
theorem IsNumeric.read_eq (h : IsNumeric text) : read text =
    .ok ⟨text, ⟨number text 0, number text 1, number text 2, [], []⟩⟩ := by
  refine read_eq_ok.mpr ⟨h.isDotted.trim_eq.symm, ?_, ?_⟩
  · rintro rfl
    exact absurd rfl (h.components [] (List.mem_singleton.mpr rfl)).ne_nil
  · have hns : (parts text).map (ofDigits 10) ≠ [] := by simpa using parts_ne_nil text
    have hfew : ((parts text).map (ofDigits 10)).length ≤ 3 := by simpa using h.few
    have hnormal : normalize text.toList = joinWith '.'
        ([number text 0, number text 1, number text 2].map fun n => (toString n).toList) := by
      rw [normalize, components_eq_some.mpr ⟨h.components, rfl⟩]
      exact congrArg (fun ns => joinWith '.' (ns.map fun n : Nat => (toString n).toList))
        (padded_eq hns hfew)
    rw [hnormal]
    exact read_numbers (h.number_lt 0) (h.number_lt 1) (h.number_lt 2)

/-- Among the texts of digits and points no others are. -/
theorem isNumeric_of_read (hd : IsDotted text.toList) (h : read text = .ok v) :
    IsNumeric text := by
  obtain ⟨hraw, -, hread⟩ := read_eq_ok.mp h
  rw [hd.trim_eq] at hraw
  rw [hraw, normalize] at hread
  cases hc : components? text.toList with
  | none =>
    rw [hc] at hread
    -- what is read as it stands has three numbers, which would have been components
    obtain ⟨a, b, c, hparts, ha, hb, hc'⟩ := parts_of_spells (Version.read_eq_ok.mp hread) hd
    have hall : ∀ part ∈ splitOn '.' text.toList, IsComponent part := by
      rw [hparts]
      simp [isComponent_of_isNumber ha, isComponent_of_isNumber hb, isComponent_of_isNumber hc']
    exact absurd (hc.symm.trans (components_eq_some.mpr ⟨hall, rfl⟩)) (by simp)
  | some ns =>
    obtain ⟨hall, hns⟩ := components_eq_some.mp hc
    refine ⟨?_, hall⟩
    rw [hc] at hread
    -- padding leads to three components, so there were no more
    have hne : ns ++ List.replicate (3 - ns.length) 0 ≠ [] := by
      rw [hns]
      simpa using fun hnil => absurd hnil (Text.splitOn_ne_nil _ _)
    obtain ⟨a, b, c, hparts, -⟩ := parts_of_spells (Version.read_eq_ok.mp hread)
      (isDotted_joinWith (digits_numbers _))
    have hlength := congrArg List.length hparts
    rw [splitOn_numbers hne] at hlength
    simp only [List.length_map, List.length_append, List.length_replicate, List.length_cons,
      List.length_nil] at hlength
    have hparts : (parts text).length = ns.length := by
      rw [hns, List.length_map]
      rfl
    omega

/-- Versions without pre-release and build metadata are ordered by their numbers. -/
theorem compare_numbers (a b c a' b' c' : Nat) :
    compare (⟨a, b, c, [], []⟩ : Version) ⟨a', b', c', [], []⟩ =
      ((compare a a').then ((compare b b').then (compare c c'))) := by
  change (compare a a').then ((compare b b').then ((compare c c').then (Ordering.eq.then .eq))) = _
  rw [Ordering.then_eq, Ordering.then_eq]

/-- Texts of one to three numbers are versions, which are ordered by the values of the numbers. All
other texts of digits and points are none. -/
theorem numeric_by_value :
    (∀ text, IsNumeric text →
      read text = .ok ⟨text, ⟨number text 0, number text 1, number text 2, [], []⟩⟩) ∧
    (∀ a b v w, IsNumeric a → IsNumeric b → read a = .ok v → read b = .ok w →
      compare v.version w.version = ((compare (number a 0) (number b 0)).then
        ((compare (number a 1) (number b 1)).then (compare (number a 2) (number b 2)))) ∧
      (v.version = w.version ↔ number a 0 = number b 0 ∧ number a 1 = number b 1 ∧
        number a 2 = number b 2)) ∧
    ∀ text, IsDotted text.toList → (3 < (parts text).length ∨
      ∃ part ∈ parts text, part = [] ∨ 2 ^ 64 ≤ ofDigits 10 part) →
      ∃ fault, read text = .error fault := by
  refine ⟨fun text h => h.read_eq, ?_, ?_⟩
  · intro a b v w ha hb hv hw
    obtain rfl := Except.ok.inj (ha.read_eq.symm.trans hv)
    obtain rfl := Except.ok.inj (hb.read_eq.symm.trans hw)
    exact ⟨compare_numbers _ _ _ _ _ _, by simp⟩
  · intro text hd hbad
    cases hread : read text with
    | error fault => exact ⟨fault, rfl⟩
    | ok v =>
      have h := isNumeric_of_read hd hread
      rcases hbad with hmany | ⟨part, hp, hempty | hlarge⟩
      · exact absurd h.few (Nat.not_le_of_lt hmany)
      · exact absurd hempty (h.components part hp).ne_nil
      · exact absurd (h.components part hp).small (Nat.not_lt_of_le hlarge)

/-- Zeros in front and numbers left out do not count. The limit is the first number too large. -/
theorem numeric_by_value_zeros : IsNumeric "001.5" ∧ IsNumeric "1.05.0" ∧
    (∃ v w, read "001.5" = .ok v ∧ read "1.05.0" = .ok w ∧ v.version = w.version) ∧
    IsDotted "1.18446744073709551616".toList ∧
    ∃ fault, read "1.18446744073709551616" = .error fault := by
  obtain ⟨hread, horder, hnone⟩ := numeric_by_value
  have ha : IsNumeric "001.5" := by decide
  have hb : IsNumeric "1.05.0" := by decide
  have hd : IsDotted "1.18446744073709551616".toList := by decide
  refine ⟨ha, hb, ⟨_, _, hread _ ha, hread _ hb, ?_⟩, hd, ?_⟩
  · exact (horder _ _ _ _ ha hb (hread _ ha) (hread _ hb)).2.mpr ⟨rfl, rfl, rfl⟩
  · exact hnone _ hd (.inr ⟨"18446744073709551616".toList, by decide, .inr (by decide)⟩)

end Overlay.DeclaredVersion
