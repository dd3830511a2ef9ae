import Overlay.Record.Dependency
import Overlay.Proofs.Version.Numeric

/-! A module that needs another one in the version that the other one declares: behind `>=` stands
the text of the declared version. A requirement is read more strictly than such a text. It takes no
needless zeros in front of a number, and no blanks but spaces. Apart from that, the version meets
the requirement made from its text. -/
namespace Overlay
open Attempt (bind_eq_ok bind_eq_error)
open Number (Digits ofDigits)
open Text (Stops isBlank trimChars)
open DeclaredVersion (IsComponent IsNumeric IsDotted parts number)
open Version (IsNumber Spells Fault Part hasLeadingZero readNumber stops_point)

/-- The version agrees with the comparator, which asks for its pre-release if there is one. -/
structure Comparator.Fits (c : Comparator) (v : Version) : Prop where
  operator : c.operator = .greaterEq
  equals : c.equals v = true
  pre : v.pre = [] ∨ c.admitsPre v = true

namespace Requirement

def Asks (cs : List Char) (v : Version) : Prop := ∃ comparator last,
  readComparator ('>' :: '=' :: cs) = .ok (comparator, last, []) ∧ comparator.Fits v

variable {cs a b c rest : List Char} {v : Version} {part : Part} {fault : Fault} {text : String}

theorem isMetBy_of_fits {comparator : Comparator} (h : comparator.Fits v) :
    isMetBy ⟨[comparator]⟩ v = true := by
  have hmet : comparator.isMetBy v = true := by
    rw [Comparator.isMetBy, h.operator]
    simp [h.equals]
  have hpre : (v.pre.isEmpty || comparator.admitsPre v) = true := by
    rcases h.pre with hnone | hadmits
    · simp [hnone]
    · simp [hadmits]
  simp [isMetBy, hmet, hpre]

theorem read_greater (cs : List Char) :
    read ('>' :: cs) = (readComparators maxComparators ('>' :: cs)).map mk := rfl

/-- A requirement that asks for just this version is met by it. -/
theorem Asks.exists_met (h : Asks cs v) : ∃ r, read ('>' :: '=' :: cs) = .ok r ∧
    r.isMetBy v = true := by
  obtain ⟨comparator, last, hread, hfits⟩ := h
  refine ⟨⟨[comparator]⟩, ?_, isMetBy_of_fits hfits⟩
  rw [read_greater, maxComparators, readComparators, hread]
  rfl

/-- The fault of the first comparator is that of the requirement, as no wildcard stands in front. -/
theorem read_fault (h : readComparator ('>' :: '=' :: cs) = .error fault) :
    read ('>' :: '=' :: cs) = .error fault := by
  rw [read_greater, maxComparators, readComparators, h]
  rfl

/-- Behind a point digits are read as a number. -/
theorem readPlace_digits (hd : Digits b) (hn : b ≠ []) : readPlace part ('.' :: (b ++ rest)) =
    (do let (n, rest) ← readNumber part (b ++ rest); return (.number n, rest)) := by
  cases b with
  | nil => exact absurd rfl hn
  | cons d ds =>
    have hwild : isWildcard d = false := by
      have hdigit := hd d List.mem_cons_self
      simp only [isWildcard, Bool.or_eq_false_iff, beq_eq_false_iff_ne]
      refine ⟨⟨?_, ?_⟩, ?_⟩ <;> (rintro rfl; exact absurd hdigit (by decide))
    rw [List.cons_append, readPlace, hwild]
    rfl

theorem readPlace_number (hb : IsNumber b) (hr : Stops Char.isDigit rest) :
    readPlace part ('.' :: (b ++ rest)) = .ok (.number (ofDigits 10 b), rest) := by
  rw [readPlace_digits hb.digits hb.ne_nil]
  exact bind_eq_ok.mpr ⟨_, hb.read part hr, rfl⟩

theorem readPlace_zero (hd : Digits b) (hn : b ≠ []) (hz : hasLeadingZero b = true)
    (hr : Stops Char.isDigit rest) :
    readPlace part ('.' :: (b ++ rest)) = .error (.leadingZero part) := by
  rw [readPlace_digits hd hn]
  refine bind_eq_error.mpr (.inl ?_)
  rw [Version.readNumber_digits part hd hn hr, if_pos hz]

theorem read_major (hs : skipSpaces cs = a ++ rest) (ha : IsNumber a)
    (hr : Stops Char.isDigit rest) :
    readNumber .major (skipSpaces cs) = .ok (ofDigits 10 a, rest) := by
  rw [hs]
  exact ha.read .major hr

theorem asks_major (hs : skipSpaces cs = a) (ha : IsNumber a) (hv : v.major = ofDigits 10 a)
    (hp : v.pre = []) : Asks cs v := by
  rw [← List.append_nil a] at hs
  refine ⟨⟨.greaterEq, ofDigits 10 a, none, none, []⟩, .major, ?_, rfl, ?_, .inl hp⟩
  · exact bind_eq_ok.mpr ⟨_, read_major hs ha Text.stops_nil, rfl⟩
  · simp [Comparator.equals, hv, hp]

/-- Two numbers without needless zeros ask for the version that they begin. -/
theorem asks_minor (hs : skipSpaces cs = a ++ '.' :: b) (ha : IsNumber a) (hb : IsNumber b)
    (hv : v.major = ofDigits 10 a ∧ v.minor = ofDigits 10 b) (hp : v.pre = []) : Asks cs v := by
  rw [← List.append_nil b] at hs
  refine ⟨⟨.greaterEq, ofDigits 10 a, some (ofDigits 10 b), none, []⟩, .minor, ?_, rfl, ?_,
    .inl hp⟩
  · refine bind_eq_ok.mpr ⟨_, read_major hs ha (stops_point _), ?_⟩
    exact bind_eq_ok.mpr ⟨_, readPlace_number hb Text.stops_nil, rfl⟩
  · simp [Comparator.equals, hv, hp]

/-- Whatever is read as a version is read here as well. -/
theorem asks_version (h : Spells (skipSpaces cs) v) : Asks cs v := by
  generalize hs : skipSpaces cs = ds at h
  cases h with
  | @intro a b c suffix pre build ha hb hc hsuffix hstop =>
    obtain ⟨last, rest, last', hpre, hbuild⟩ := hsuffix
    refine ⟨⟨.greaterEq, ofDigits 10 a, some (ofDigits 10 b), some (ofDigits 10 c), pre⟩, last', ?_,
      rfl, ?_, ?_⟩
    · refine bind_eq_ok.mpr ⟨_, read_major hs ha (stops_point _), ?_⟩
      refine bind_eq_ok.mpr ⟨_, readPlace_number hb (stops_point _), ?_⟩
      refine bind_eq_ok.mpr ⟨_, readPlace_number hc hstop, ?_⟩
      refine bind_eq_ok.mpr ⟨(pre, last', []), ?_, rfl⟩
      exact bind_eq_ok.mpr ⟨_, hpre, bind_eq_ok.mpr ⟨_, hbuild, rfl⟩⟩
    · simp [Comparator.equals]
    · cases pre with
      | nil => exact .inl rfl
      | cons segment pre => exact .inr (by simp [Comparator.admitsPre])

theorem major_zero (hs : skipSpaces cs = a ++ rest) (ha : IsComponent a)
    (hz : hasLeadingZero a = true) (hr : Stops Char.isDigit rest) :
    readComparator ('>' :: '=' :: cs) = .error (.leadingZero .major) := by
  have hmajor : readNumber .major (skipSpaces cs) = .error (.leadingZero .major) := by
    rw [hs, Version.readNumber_digits .major ha.digits ha.ne_nil hr, if_pos hz]
  exact bind_eq_error.mpr (.inl hmajor)

/-- If the first number is fine, the second is looked at. -/
theorem minor_zero (hs : skipSpaces cs = a ++ '.' :: (b ++ rest)) (ha : IsNumber a)
    (hb : IsComponent b) (hz : hasLeadingZero b = true) (hr : Stops Char.isDigit rest) :
    readComparator ('>' :: '=' :: cs) = .error (.leadingZero .minor) :=
  bind_eq_error.mpr (.inr ⟨_, read_major hs ha (stops_point _),
    bind_eq_error.mpr (.inl (readPlace_zero hb.digits hb.ne_nil hz hr))⟩)

theorem patch_zero (hs : skipSpaces cs = a ++ '.' :: (b ++ '.' :: (c ++ rest))) (ha : IsNumber a)
    (hb : IsNumber b) (hc : IsComponent c) (hz : hasLeadingZero c = true)
    (hr : Stops Char.isDigit rest) :
    readComparator ('>' :: '=' :: cs) = .error (.leadingZero .patch) :=
  bind_eq_error.mpr (.inr ⟨_, read_major hs ha (stops_point _),
    bind_eq_error.mpr (.inr ⟨_, readPlace_number hb (stops_point _),
      bind_eq_error.mpr (.inl (readPlace_zero hc.digits hc.ne_nil hz hr))⟩)⟩)

/-- Numbers without needless zeros are read as the version that they are. -/
theorem asks_numeric (h : IsNumeric text) (hs : skipSpaces cs = text.toList)
    (hz : ∀ part ∈ parts text, hasLeadingZero part = false) :
    Asks cs ⟨number text 0, number text 1, number text 2, [], []⟩ := by
  rcases h.forms with ⟨a, ha, hp, ht⟩ | ⟨a, b, ha, hb, hp, ht⟩ | ⟨a, b, c, ha, hb, hc, hp, ht⟩
  · rw [ht] at hs
    exact asks_major hs (ha.isNumber (hz a (by simp [hp]))) (by simp [number, hp]) rfl
  · rw [ht] at hs
    exact asks_minor hs (ha.isNumber (hz a (by simp [hp]))) (hb.isNumber (hz b (by simp [hp])))
      (by simp [number, hp]) rfl
  · have hspells := Version.spells_numbers (ha.isNumber (hz a (by simp [hp])))
      (hb.isNumber (hz b (by simp [hp]))) (hc.isNumber (hz c (by simp [hp])))
    have hnumbers : number text 0 = ofDigits 10 a ∧ number text 1 = ofDigits 10 b ∧
        number text 2 = ofDigits 10 c := by simp [number, hp]
    rw [hnumbers.1, hnumbers.2.1, hnumbers.2.2]
    rw [← ht, ← hs] at hspells
    exact asks_version hspells

/-- The first number with a needless zero is the fault. -/
theorem zero_of_numeric (h : IsNumeric text) (hs : skipSpaces cs = text.toList)
    (hz : ¬ ∀ part ∈ parts text, hasLeadingZero part = false) :
    ∃ front digits rest part, parts text = front ++ digits :: rest ∧
      (∀ first ∈ front, hasLeadingZero first = false) ∧ hasLeadingZero digits = true ∧
      [Part.major, .minor, .patch][front.length]? = some part ∧
      readComparator ('>' :: '=' :: cs) = .error (.leadingZero part) := by
  -- the numbers in front of the one at fault are read
  rcases h.forms with ⟨a, ha, hp, ht⟩ | ⟨a, b, ha, hb, hp, ht⟩ | ⟨a, b, c, ha, hb, hc, hp, ht⟩
  · rw [ht, ← List.append_nil a] at hs
    have hza : hasLeadingZero a = true := by simpa [hp] using hz
    exact ⟨[], a, [], _, hp, by simp, hza, rfl, major_zero hs ha hza Text.stops_nil⟩
  · rw [ht, ← List.append_nil b] at hs
    cases hza : hasLeadingZero a with
    | true => exact ⟨[], a, [b], _, hp, by simp, hza, rfl, major_zero hs ha hza (stops_point _)⟩
    | false =>
      have hzb : hasLeadingZero b = true := by simpa [hp, hza] using hz
      exact ⟨[a], b, [], _, hp, by simpa using hza, hzb, rfl,
        minor_zero hs (ha.isNumber hza) hb hzb Text.stops_nil⟩
  · rw [ht, ← List.append_nil c] at hs
    cases hza : hasLeadingZero a with
    | true =>
      exact ⟨[], a, [b, c], _, hp, by simp, hza, rfl, major_zero hs ha hza (stops_point _)⟩
    | false =>
      cases hzb : hasLeadingZero b with
      | true =>
        exact ⟨[a], b, [c], _, hp, by simpa using hza, hzb, rfl,
          minor_zero hs (ha.isNumber hza) hb hzb (stops_point _)⟩
      | false =>
        have hzc : hasLeadingZero c = true := by simpa [hp, hza, hzb] using hz
        exact ⟨[a, b], c, [], _, hp, by simp [hza, hzb], hzc, rfl,
          patch_zero hs (ha.isNumber hza) (hb.isNumber hzb) hc hzc Text.stops_nil⟩

/-- Spaces in front are passed over, up to the first character that is no blank. -/
theorem skipSpaces_spaces {front : List Char} (hf : ∀ c ∈ front, c = ' ') (hs : Stops isBlank cs) :
    skipSpaces (' ' :: (front ++ cs)) = cs := by
  have hspaces : ∀ c ∈ ' ' :: front, decide (c = ' ') = true := by simpa using hf
  have hstops : Stops (fun c => decide (c = ' ')) cs := by
    apply hs.mono
    intro c hc
    rw [of_decide_eq_true hc]
    decide
  have hrun := Text.dropWhile_run hspaces hstops
  exact hrun

/-- The first blank that is no space is no number. -/
theorem other_blank {front : List Char} (hb : ∀ c ∈ front, isBlank c = true)
    (hf : ¬ ∀ c ∈ front, c = ' ') : ∃ spaces c rest, front = spaces ++ c :: rest ∧
      (∀ space ∈ spaces, space = ' ') ∧ c ≠ ' ' ∧
      readComparator ('>' :: '=' :: ' ' :: (front ++ cs)) =
        .error (.unexpectedCharacter .major c) := by
  obtain ⟨spaces, rest, rfl, hspaces, hstops⟩ := Text.exists_run (fun c => decide (c = ' ')) front
  cases rest with
  | nil =>
    refine absurd ?_ hf
    simpa using hspaces
  | cons c rest =>
    have hc : isBlank c = true := hb c (by simp)
    have hother : c ≠ ' ' := by simpa using hstops
    -- a blank is no digit, so no number starts there
    have hdigit : c.isDigit = false := by
      cases hd : c.isDigit with
      | false => rfl
      | true => exact absurd hc (by simp [DeclaredVersion.isBlank_of_isDigit hd])
    have hskip : skipSpaces (' ' :: (spaces ++ c :: rest ++ cs)) = c :: (rest ++ cs) := by
      have hspaces : ∀ c ∈ ' ' :: spaces, decide (c = ' ') = true := by simpa using hspaces
      have hrun := Text.dropWhile_run hspaces
        (hstops.append (List.cons_ne_nil c rest) cs)
      rw [List.append_assoc]
      exact hrun
    have hmajor : readNumber .major (skipSpaces (' ' :: (spaces ++ c :: rest ++ cs))) =
        .error (.unexpectedCharacter .major c) := by
      rw [hskip, Version.readNumber_stop .major (Text.stops_cons.mpr hdigit)]
      rfl
    exact ⟨spaces, c, rest, rfl, fun space hs => of_decide_eq_true (hspaces space hs), hother,
      bind_eq_error.mpr (.inl hmajor)⟩

end Requirement

variable {text : String} {v : DeclaredVersion}

/-- Behind an identity and `>=` the requirement is read up to the blanks behind the whole text. -/
theorem Dependency.read_atLeast {identity raw back : List Char} (hn : identity ≠ [])
    (hid : ∀ c ∈ identity, (!endsIdentity c) = true) (front : List Char) (hraw : raw ≠ [])
    (hlast : Stops isBlank raw.reverse) (hback : ∀ c ∈ back, isBlank c = true) :
    Dependency.read (.ofList (identity ++ ' ' :: '>' :: '=' :: ' ' :: (front ++ (raw ++ back)))) =
      (Requirement.read ('>' :: '=' :: ' ' :: (front ++ raw))).map
        fun r => ⟨.ofList identity, some r⟩ := by
  have hend (more : List Char) : Stops isBlank (more ++ raw).reverse := by
    rw [List.reverse_append]
    exact hlast.append (by simpa using hraw) _
  have hstart : Stops isBlank identity := by
    intro c hc
    have hends := hid c (List.mem_of_mem_head? hc)
    simp only [endsIdentity, Bool.not_eq_true', Bool.or_eq_false_iff] at hends
    tauto
  -- of the whole text only the blanks at its end are trimmed
  have htrim : trimChars (identity ++ ' ' :: '>' :: '=' :: ' ' :: (front ++ (raw ++ back))) =
      identity ++ ' ' :: '>' :: '=' :: ' ' :: (front ++ raw) := by
    have hback := Text.trimChars_append_blanks hback
      (identity ++ ' ' :: '>' :: '=' :: ' ' :: (front ++ raw))
    simp only [List.append_assoc, List.cons_append] at hback
    rw [hback]
    apply Text.trimChars_of_stops (hstart.append hn _)
    have hreverse := hend (identity ++ ' ' :: '>' :: '=' :: ' ' :: front)
    simpa only [List.append_assoc, List.cons_append] using hreverse
  -- behind the identity only the space is
  have htrim' : trimChars (' ' :: '>' :: '=' :: ' ' :: (front ++ raw)) =
      '>' :: '=' :: ' ' :: (front ++ raw) := by
    rw [Text.trimChars_cons_blank (by decide)]
    exact Text.trimChars_of_stops (Text.stops_cons.mpr (by decide))
      (hend ('>' :: '=' :: ' ' :: front))
  have hstop : Stops (fun c => !endsIdentity c) (' ' :: '>' :: '=' :: ' ' :: (front ++ raw)) :=
    Text.stops_cons.mpr (by decide)
  rw [Dependency.read, String.toList_ofList, htrim, Text.takeWhile_run hid hstop,
    Text.dropWhile_run hid hstop, htrim']
  simp only
  cases Requirement.read ('>' :: '=' :: ' ' :: (front ++ raw)) <;> rfl

namespace DeclaredVersion

/-- Texts in the form that requirements are read in. -/
structure IsPlain (text : String) : Prop where
  spaces : ∀ c ∈ text.toList.takeWhile isBlank, c = ' '
  canonical : IsDotted (Text.trim text).toList →
    ∀ part ∈ parts (Text.trim text), hasLeadingZero part = false

instance (text : String) : Decidable (IsPlain text) :=
  decidable_of_iff ((text.toList.takeWhile isBlank).all (· == ' ') = true ∧
      (IsDotted (Text.trim text).toList →
        ∀ part ∈ parts (Text.trim text), hasLeadingZero part = false))
    ⟨fun h => ⟨by simpa using h.1, h.2⟩, fun h => ⟨by simpa using h.spaces, h.canonical⟩⟩

/-- Why a text that is not in plain form is refused: for its first blank that is no space, or else
for its first number with a needless zero. -/
inductive Refused (text : String) : Fault → Prop
  | blank {spaces rest : List Char} {c : Char}
      (hblanks : text.toList.takeWhile isBlank = spaces ++ c :: rest)
      (hspaces : ∀ space ∈ spaces, space = ' ') (hc : c ≠ ' ') :
      Refused text (.unexpectedCharacter .major c)
  | zero {front rest : List (List Char)} {digits : List Char} {part : Part}
      (hspaces : ∀ c ∈ text.toList.takeWhile isBlank, c = ' ')
      (hparts : parts (Text.trim text) = front ++ digits :: rest)
      (hfront : ∀ first ∈ front, hasLeadingZero first = false) (hz : hasLeadingZero digits = true)
      (hpart : [Part.major, .minor, .patch][front.length]? = some part) :
      Refused text (.leadingZero part)

/-- What is read as a version has digits only, or it stands there as a version is written. -/
theorem numeric_or_spells (h : read text = .ok v) :
    (IsDotted v.raw.toList ∧ IsNumeric v.raw ∧
      v.version = ⟨number v.raw 0, number v.raw 1, number v.raw 2, [], []⟩) ∨
    (¬ IsDotted v.raw.toList ∧ Spells v.raw.toList v.version) := by
  have hraw := read_raw h
  by_cases hd : IsDotted v.raw.toList
  · have hnumeric := isNumeric_of_read hd hraw
    have hv := Except.ok.inj (hraw.symm.trans hnumeric.read_eq)
    exact .inl ⟨hd, hnumeric, congrArg version hv⟩
  · refine .inr ⟨hd, ?_⟩
    obtain ⟨-, -, hread⟩ := read_eq_ok.mp h
    cases hc : components? v.raw.toList with
    | none =>
      rw [normalize, hc] at hread
      exact Version.read_eq_ok.mp hread
    | some ns =>
      obtain ⟨hall, -⟩ := components_eq_some.mp hc
      refine absurd ?_ hd
      rw [← Text.joinWith_splitOn '.' v.raw.toList]
      exact isDotted_joinWith fun part hp => (hall part hp).digits

def required (text : String) : List Char :=
  ' ' :: (text.toList.takeWhile isBlank ++ (Text.trim text).toList)

/-- Behind the identity, the text of a declared version is read as a requirement. -/
theorem read_required (h : read text = .ok v) : Dependency.read ("Core >= " ++ text) =
    (Requirement.read ('>' :: '=' :: required text)).map fun r => ⟨"Core", some r⟩ := by
  obtain ⟨hraw, hne, -⟩ := read_eq_ok.mp h
  have hchars : (Text.trim text).toList = trimChars text.toList := by
    rw [Text.trim, String.toList_ofList]
  have hcs : trimChars text.toList ≠ [] := by
    rw [← hchars, ← hraw]
    exact fun hnil => hne (String.toList_eq_nil_iff.mp hnil)
  obtain ⟨front, back, htext, hfront, hback⟩ := Text.exists_blanks text.toList
  have hrun : text.toList.takeWhile isBlank = front := by
    have hstops := (Text.stops_trimChars text.toList).append hcs back
    rw [htext]
    exact Text.takeWhile_run hfront hstops
  have hid : "Core".toList.all (fun c => !endsIdentity c) = true := by decide
  have hread := Dependency.read_atLeast (by decide) (List.all_eq_true.mp hid) front hcs
    (Text.stops_reverse_trimChars text.toList) hback
  rw [← htext, ← hchars, ← hrun, String.ofList_toList] at hread
  have hentry : "Core >= " ++ text =
      .ofList ("Core".toList ++ ' ' :: '>' :: '=' :: ' ' :: text.toList) := by
    rw [← String.toList_inj, String.toList_append]
    simp
  rw [hentry, hread]
  rfl

theorem skipSpaces_required (hs : ∀ c ∈ text.toList.takeWhile isBlank, c = ' ') :
    Requirement.skipSpaces (required text) = (Text.trim text).toList := by
  apply Requirement.skipSpaces_spaces hs
  rw [Text.trim, String.toList_ofList]
  exact Text.stops_trimChars text.toList

/-- A text in plain form asks for the version that it declares. -/
theorem asks_required (h : read text = .ok v) (hp : IsPlain text) :
    Requirement.Asks (required text) v.version := by
  have hskip := skipSpaces_required hp.spaces
  have hcanonical := hp.canonical
  rw [← (read_eq_ok.mp h).1] at hskip hcanonical
  rcases numeric_or_spells h with ⟨hd, hn, hv⟩ | ⟨-, hs⟩
  · rw [hv]
    exact Requirement.asks_numeric hn hskip (hcanonical hd)
  · rw [← hskip] at hs
    exact Requirement.asks_version hs

/-- Blanks are looked at first, then the numbers one after the other. -/
theorem fault_required (h : read text = .ok v) (hp : ¬ IsPlain text) :
    ∃ fault, Requirement.readComparator ('>' :: '=' :: required text) = .error fault ∧
      Refused text fault := by
  by_cases hspaces : ∀ c ∈ text.toList.takeWhile isBlank, c = ' '
  · have hskip := skipSpaces_required hspaces
    have hzero : ¬ (IsDotted (Text.trim text).toList →
        ∀ part ∈ parts (Text.trim text), hasLeadingZero part = false) :=
      fun hcanonical => hp ⟨hspaces, hcanonical⟩
    rw [← (read_eq_ok.mp h).1] at hskip hzero
    rcases numeric_or_spells h with ⟨-, hn, -⟩ | ⟨hd, -⟩
    · obtain ⟨front, digits, rest, part, hparts, hfront, hz, hpart, hread⟩ :=
        Requirement.zero_of_numeric hn hskip fun hz => hzero fun _ => hz
      rw [(read_eq_ok.mp h).1] at hparts
      exact ⟨_, hread, .zero hspaces hparts hfront hz hpart⟩
    · exact absurd (fun hdotted => absurd hdotted hd) hzero
  · obtain ⟨spaces, c, rest, hblanks, hfront, hc, hread⟩ :=
      Requirement.other_blank (fun c hc => List.mem_takeWhile_imp hc) hspaces
    exact ⟨_, hread, .blank hblanks hfront hc⟩

/-- A declared version meets the requirement that is made from its text, if the text is in plain
form. If it is not, there is no such requirement: it is refused for the first blank that is no
space, or else for the first needless zero. -/
theorem requires_itself (h : read text = .ok v) :
    (IsPlain text → ∃ r, Dependency.read ("Core >= " ++ text) = .ok ⟨"Core", some r⟩ ∧
      v.satisfies r = true) ∧
    (¬ IsPlain text → ∃ fault, Dependency.read ("Core >= " ++ text) = .error fault ∧
      Refused text fault) := by
  rw [read_required h]
  constructor
  · intro hp
    obtain ⟨r, hread, hmet⟩ := (asks_required h hp).exists_met
    refine ⟨r, ?_, hmet⟩
    rw [hread]
    rfl
  · intro hp
    obtain ⟨fault, hread, hfault⟩ := fault_required h hp
    refine ⟨fault, ?_, hfault⟩
    rw [Requirement.read_fault hread]
    rfl

/-- Pre-releases and build metadata do no harm. -/
theorem requires_itself_prerelease :
    (∃ v, read " 1.2.3-rc.1+7 " = .ok v ∧ IsPlain " 1.2.3-rc.1+7 " ∧
      ∃ r, Dependency.read ("Core >= " ++ " 1.2.3-rc.1+7 ") = .ok ⟨"Core", some r⟩ ∧
        v.satisfies r = true) ∧
    ∃ v, read "\t1.2" = .ok v ∧ ¬ IsPlain "\t1.2" ∧
      ∃ fault, Dependency.read ("Core >= " ++ "\t1.2") = .error fault := by
  have hrc : read " 1.2.3-rc.1+7 " = .ok ⟨"1.2.3-rc.1+7", ⟨1, 2, 3, ["rc", "1"], ["7"]⟩⟩ := by
    decide +kernel
  have htab : read "\t1.2" = .ok ⟨"1.2", ⟨1, 2, 0, [], []⟩⟩ := by decide +kernel
  have hplain : IsPlain " 1.2.3-rc.1+7 " := by decide +kernel
  have hother : ¬ IsPlain "\t1.2" := by decide +kernel
  obtain ⟨fault, hread, -⟩ := (requires_itself htab).2 hother
  exact ⟨⟨_, hrc, hplain, (requires_itself hrc).1 hplain⟩, _, htab, hother, fault, hread⟩

/-- With a zero in front of a number, the text of a declared version is no requirement. -/
theorem own_version_refused : ¬ ∀ text v, read text = .ok v →
    ∃ r, Dependency.read ("Core >= " ++ text) = .ok ⟨"Core", some r⟩ ∧ v.satisfies r = true := by
  intro hall
  have hdeclared : read "1.05" = .ok ⟨"1.05", ⟨1, 5, 0, [], []⟩⟩ := by decide +kernel
  have hrefused : Dependency.read ("Core >= " ++ "1.05") = .error (.leadingZero .minor) := by
    decide +kernel
  obtain ⟨r, hread, -⟩ := hall _ _ hdeclared
  exact absurd (hrefused.symm.trans hread) (by simp)

end DeclaredVersion

end Overlay
