import Mathlib
import Overlay.Proofs.Text.Split
import Overlay.Proofs.Tree.Declared

namespace Overlay
open Text (isBlank)
open Number (isWordChar isLiteralChar)
open Attempt (bind_eq_ok)

theorem isWordChar_toLower (c : Char) : isWordChar c.toLower = isWordChar c := by
  by_cases hc : c.isUpper = true
  · have halpha : c.isAlpha = true := by rw [Char.isAlpha, hc, Bool.true_or]
    rw [isWordChar, Char.isAlphanum, Char.isAlpha_toLower_eq_isAlpha, halpha, isWordChar,
      Char.isAlphanum, halpha]
    rfl
  · rw [Char.toLower_eq_of_not_isUpper hc]

theorem isWordChar_of_isWord {name : String} (h : IsWord name) :
    ∀ c ∈ name.toList, isWordChar c = true := by
  obtain ⟨first, more, hname, hfirst, hmore⟩ := h
  rw [hname, List.forall_mem_cons]
  refine ⟨?_, hmore⟩
  rw [Piece.startsWord, Bool.or_eq_true] at hfirst
  rw [isWordChar, Char.isAlphanum]
  rcases hfirst with h | h <;> simp [h]

/-- A name that is that of a class or a property, but for the case, has nothing in it that could
end a segment of a path. -/
theorem clean_of_key {name other : String} (hn : IsName name) (hk : nameKey name = nameKey other) :
    other ≠ "" ∧ '.' ∉ other.toList ∧ ∀ c ∈ other.toList, isBlank c = false := by
  have hlower : name.toList.map Char.toLower = other.toList.map Char.toLower := by
    have hlists := congrArg String.toList hk
    rwa [nameKey, nameKey, String.toList_map, String.toList_map] at hlists
  have hword : ∀ c ∈ other.toList, isWordChar c = true := by
    intro c hc
    have hin : c.toLower ∈ name.toList.map Char.toLower := hlower ▸ List.mem_map_of_mem hc
    obtain ⟨d, hd, heq⟩ := List.mem_map.mp hin
    rw [← isWordChar_toLower, ← heq, isWordChar_toLower]
    exact isWordChar_of_isWord hn.1 d hd
  refine ⟨?_, ?_, ?_⟩
  · rintro rfl
    obtain ⟨first, more, hname, _⟩ := hn.1
    rw [hname] at hlower
    exact List.cons_ne_nil _ _ hlower
  · intro hdot
    exact absurd (hword '.' hdot) (by decide)
  · intro c hc
    apply Piece.isBlank_of_isLiteralChar
    rw [isLiteralChar, hword c hc, Bool.true_or]

namespace Class

variable {c d e : Class} {names : List String} {name : String} {v : Value}

/-- A class inside another one. Each name is that of a child of the class before, whatever the
case. -/
inductive Reaches : Class → List String → Class → Prop
  | here (c : Class) : Reaches c [] c
  | inside {c d e : Class} {name : String} {names : List String} (hd : d ∈ c.children)
      (hn : nameKey d.name = nameKey name) (h : Reaches d names e) : Reaches c (name :: names) e

/-- A property inside a class. All names but the last lead to a class, and the last one is that of
a property of this class, whatever the case. -/
def Holds (c : Class) (names : List String) (v : Value) : Prop :=
  ∃ front last d, names = front ++ [last] ∧ c.Reaches front d ∧
    ∃ m ∈ d.properties, nameKey m.name = nameKey last ∧ m.value = v

/-- In a class in order, to follow the keys of names is to follow the names. -/
theorem at_eq_some_iff (h : c.Ordered) :
    c.at? (names.map nameKey) = some d ↔ c.Reaches names d := by
  induction names generalizing c with
  | nil =>
    rw [List.map_nil, at?, Option.some.injEq]
    constructor
    · rintro rfl
      exact .here c
    · rintro ⟨⟩
      rfl
  | cons name names ih =>
    rw [List.map_cons, at?, Option.bind_eq_some_iff]
    constructor
    · rintro ⟨e, he, hd⟩
      obtain ⟨hm, hk⟩ := (Roster.find_eq_some_iff h.childKeys).mp he
      exact .inside hm hk ((ih (h.children e hm).ordered).mp hd)
    · rintro (_ | ⟨hm, hk, hd⟩)
      exact ⟨_, (Roster.find_eq_some_iff h.childKeys).mpr ⟨hm, hk⟩,
        (ih (h.children _ hm).ordered).mpr hd⟩

/-- The last of some names is that of a child of the class before. -/
theorem reaches_snoc : c.Reaches (names ++ [name]) e ↔
    ∃ d, c.Reaches names d ∧ e ∈ d.children ∧ nameKey e.name = nameKey name := by
  induction names generalizing c with
  | nil =>
    constructor
    · rintro (_ | ⟨hm, hk, ⟨⟩⟩)
      exact ⟨c, .here c, hm, hk⟩
    · rintro ⟨d, ⟨⟩, hm, hk⟩
      exact .inside hm hk (.here e)
  | cons first names ih =>
    constructor
    · rintro (_ | ⟨hm, hk, h⟩)
      obtain ⟨d, hd, hlast⟩ := ih.mp h
      exact ⟨d, .inside hm hk hd, hlast⟩
    · rintro ⟨d, _ | ⟨hm, hk, hd⟩, hlast⟩
      exact .inside hm hk (ih.mpr ⟨d, hd, hlast⟩)

theorem Reaches.ordered (h : c.Ordered) (hd : c.Reaches names d) : d.Ordered :=
  ordered_at h ((at_eq_some_iff h).mpr hd)

/-- In a class in order names lead to one class at most. -/
theorem Reaches.unique (h : c.Ordered) (hd : c.Reaches names d) (he : c.Reaches names e) :
    d = e := by
  rw [← at_eq_some_iff h] at hd he
  exact Option.some.inj (hd.symm.trans he)

/-- The names that lead to a class can all be segments of a path. -/
theorem Reaches.clean (h : c.Ordered) (hd : c.Reaches names d) : ∀ name ∈ names,
    name ≠ "" ∧ '.' ∉ name.toList ∧ ∀ c ∈ name.toList, isBlank c = false := by
  induction hd with
  | here => simp
  | inside hm hk _ ih =>
    have hproper := h.children _ hm
    exact List.forall_mem_cons.mpr
      ⟨clean_of_key (proper_iff.mp hproper).1 hk, ih hproper.ordered⟩

/-- Names that lead somewhere have neither dots nor blanks, and none of them is empty. -/
theorem Holds.clean (h : c.Ordered) (hv : c.Holds names v) : ∀ name ∈ names,
    name ≠ "" ∧ '.' ∉ name.toList ∧ ∀ c ∈ name.toList, isBlank c = false := by
  obtain ⟨front, last, d, rfl, hd, m, hm, hk, _⟩ := hv
  rw [List.forall_mem_append, List.forall_mem_singleton]
  exact ⟨hd.clean h, clean_of_key ((hd.ordered h).properties m hm).name hk⟩

/-- A property is found under its name, whatever the case. -/
theorem entry_eq_value (h : d.Ordered) : Tree.entry? d (nameKey name) = some (.value v) ↔
    ∃ m ∈ d.properties, nameKey m.name = nameKey name ∧ m.value = v := by
  rw [Tree.entry?]
  cases hp : d.property? (nameKey name) with
  | some m =>
    have hfound := (Roster.find_eq_some_iff h.propertyKeys).mp hp
    rw [Option.some.injEq, Entry.value.injEq]
    constructor
    · rintro rfl
      exact ⟨m, hfound.1, hfound.2, rfl⟩
    · rintro ⟨m', hm, hk, rfl⟩
      have hfound' := (Roster.find_eq_some_iff h.propertyKeys).mpr ⟨hm, hk⟩
      exact congrArg Member.value (Option.some.inj (hp.symm.trans hfound'))
  | none =>
    have hnone := Roster.find_eq_none_iff.mp hp
    constructor
    · cases d.child? (nameKey name) <;> simp
    · rintro ⟨m, hm, hk, _⟩
      exact absurd (hk ▸ List.mem_map_of_mem hm) hnone

/-- A property hides a class of the same name. -/
theorem entry_eq_group (h : d.Ordered) : Tree.entry? d (nameKey name) = some (.group e) ↔
    (∀ m ∈ d.properties, nameKey m.name ≠ nameKey name) ∧
      e ∈ d.children ∧ nameKey e.name = nameKey name := by
  rw [Tree.entry?]
  cases hp : d.property? (nameKey name) with
  | some m =>
    have hfound := (Roster.find_eq_some_iff h.propertyKeys).mp hp
    rw [Option.some.injEq]
    constructor
    · simp
    · rintro ⟨hno, _⟩
      exact absurd hfound.2 (hno m hfound.1)
  | none =>
    have hnone : ∀ m ∈ d.properties, nameKey m.name ≠ nameKey name := fun m hm hk =>
      Roster.find_eq_none_iff.mp hp (hk ▸ List.mem_map_of_mem hm)
    have hchild : d.child? (nameKey name) = some e ↔
        e ∈ d.children ∧ nameKey e.name = nameKey name := Roster.find_eq_some_iff h.childKeys
    rw [and_iff_right hnone, ← hchild]
    cases d.child? (nameKey name) <;> simp

theorem entryAt_snoc_iff (h : c.Ordered) {entry : Entry} :
    Tree.entryAt? c ((names ++ [name]).map nameKey) = some entry ↔
      ∃ d, c.Reaches names d ∧ Tree.entry? d (nameKey name) = some entry := by
  rw [List.map_append, List.map_singleton, Tree.entryAt_snoc, Option.bind_eq_some_iff]
  exact exists_congr fun d => and_congr_left fun _ => at_eq_some_iff h

/-- A value is found at a path exactly if the names lead to it. -/
theorem entryAt_eq_value (h : c.Ordered) :
    Tree.entryAt? c (names.map nameKey) = some (.value v) ↔ c.Holds names v := by
  rcases List.eq_nil_or_concat' names with rfl | ⟨front, last, rfl⟩
  · constructor
    · simp [Tree.entryAt?]
    · rintro ⟨front, last, d, heq, _⟩
      simp at heq
  · rw [entryAt_snoc_iff h]
    constructor
    · rintro ⟨d, hd, hv⟩
      exact ⟨front, last, d, rfl, hd, (entry_eq_value (hd.ordered h)).mp hv⟩
    · rintro ⟨front', last', d, heq, hd, hv⟩
      obtain ⟨rfl, hlast⟩ := List.append_inj' heq rfl
      obtain rfl := List.singleton_inj.mp hlast
      exact ⟨d, hd, (entry_eq_value (hd.ordered h)).mpr hv⟩

/-- A class is found at a path exactly if the names lead to it and to no value. -/
theorem entryAt_eq_group (h : c.Ordered) (hn : names ≠ []) :
    Tree.entryAt? c (names.map nameKey) = some (.group e) ↔
      (∀ v, ¬c.Holds names v) ∧ c.Reaches names e := by
  obtain ⟨front, last, rfl⟩ := (List.eq_nil_or_concat' names).resolve_left hn
  rw [entryAt_snoc_iff h]
  constructor
  · rintro ⟨d, hd, he⟩
    obtain ⟨hno, hm, hk⟩ := (entry_eq_group (hd.ordered h)).mp he
    refine ⟨?_, reaches_snoc.mpr ⟨d, hd, hm, hk⟩⟩
    rintro v ⟨front', last', d', heq, hd', m, hmem, hkey, _⟩
    obtain ⟨rfl, hlast⟩ := List.append_inj' heq rfl
    obtain rfl := List.singleton_inj.mp hlast
    obtain rfl := hd.unique h hd'
    exact hno m hmem hkey
  · rintro ⟨hno, he⟩
    obtain ⟨d, hd, hm, hk⟩ := reaches_snoc.mp he
    refine ⟨d, hd, (entry_eq_group (hd.ordered h)).mpr ⟨?_, hm, hk⟩⟩
    exact fun m hmem hkey => hno m.value ⟨front, last, d, rfl, hd, m, hmem, hkey, rfl⟩

end Class

namespace Tree

variable {t : Tree} {path : String} {names : List String}

/-- The names in a dotted path: what stands between the dots, without the blanks around it. -/
def namesIn (path : String) : List String :=
  (Text.splitOn '.' path.toList).map fun part => .ofList (Text.trimChars part)

theorem namesIn_ne_nil (path : String) : namesIn path ≠ [] := by
  simp [namesIn, Text.splitOn_ne_nil]

/-- A path is refused exactly if one of its names is empty. -/
theorem segments_eq (path : String) : segments path =
    if "" ∈ namesIn path then .error (.invalidPath path) else .ok (namesIn path) := by
  have hdot : Text.isBlank '.' = false := by decide
  have hparts := Text.map_trim_splitOn hdot path.toList
  have hnames : namesIn path =
      ((Text.splitOn '.' path.toList).map Text.trimChars).map String.ofList := by
    rw [namesIn, List.map_map]
    rfl
  have hblank (parts : List (List Char)) :
      parts.any List.isEmpty = true ↔ "" ∈ parts.map String.ofList := by
    rw [List.any_eq_true, List.mem_map]
    refine exists_congr fun part => and_congr_right fun _ => ?_
    rw [List.isEmpty_iff, ← String.toList_inj, String.toList_ofList]
    rfl
  rw [segments, hparts, hnames]
  simp only [hblank]

/-- Names that have no dots and no blanks in them are read back from the path that they make. -/
theorem namesIn_intercalate (hn : names ≠ []) (hc : ∀ name ∈ names,
    name ≠ "" ∧ '.' ∉ name.toList ∧ ∀ c ∈ name.toList, isBlank c = false) :
    namesIn (".".intercalate names) = names := by
  have hdots : ∀ part ∈ names.map String.toList, '.' ∉ part := by
    rw [List.forall_mem_map]
    exact fun name hm => (hc name hm).2.1
  have hsplit : Text.splitOn '.' (".".intercalate names).toList = names.map String.toList := by
    rw [String.toList_intercalate]
    exact Text.splitOn_intercalate hdots (fun h => hn (List.map_eq_nil_iff.mp h))
  have hsame : ∀ name ∈ names, String.ofList (Text.trimChars name.toList) = name := by
    intro name hm
    rw [Text.trimChars_of_clean (hc name hm).2.2, String.ofList_toList]
  rw [namesIn, hsplit, List.map_map]
  exact (List.map_congr_left hsame).trans (List.map_id names)

/-- What a tree answers to a path. It refuses the path if there is nothing between two dots, or
before the first or behind the last one. Else it has the value of the property that the names lead
to, or else the class, or nothing. -/
structure Answers (t : Tree) (path : String) : Prop where
  invalid : t.lookup path = .error (.invalidPath path) ↔ "" ∈ namesIn path
  value : "" ∉ namesIn path → ∀ v,
    (t.lookup path = .ok (.value v) ↔ t.root.Holds (namesIn path) v)
  group : "" ∉ namesIn path → ∀ c, (t.lookup path = .ok (.group c) ↔
    (∀ v, ¬t.root.Holds (namesIn path) v) ∧ t.root.Reaches (namesIn path) c)
  notFound : "" ∉ namesIn path → (t.lookup path = .error (.notFound path) ↔
    (∀ v, ¬t.root.Holds (namesIn path) v) ∧ ∀ c, ¬t.root.Reaches (namesIn path) c)
  get : ∀ v, t.get path = .ok v ↔ t.lookup path = .ok (.value v)
  classAt : "" ∉ namesIn path → ∀ c, (t.classAt path = .ok c ↔ t.root.Reaches (namesIn path) c)

theorem lookup_eq (t : Tree) (path : String) : t.lookup path =
    if "" ∈ namesIn path then .error (.invalidPath path)
    else orNotFound path (entryAt? t.root ((namesIn path).map nameKey)) := by
  rw [lookup, segments_eq]
  split_ifs <;> rfl

theorem classAt_eq (t : Tree) (path : String) : t.classAt path =
    if "" ∈ namesIn path then .error (.invalidPath path)
    else orNotFound path (t.at? ((namesIn path).map nameKey)) := by
  rw [classAt, segments_eq]
  split_ifs <;> rfl

theorem get_eq_ok_iff (t : Tree) (path : String) (v : Value) :
    t.get path = .ok v ↔ t.lookup path = .ok (.value v) := by
  rw [get, bind_eq_ok]
  constructor
  · rintro ⟨entry, he, hv⟩
    cases entry with
    | group c => simp at hv
    | value w =>
      obtain rfl := Attempt.pure_eq_ok.mp hv
      exact he
  · intro h
    exact ⟨.value v, h, rfl⟩

/-- A tree in order answers every path as it should. -/
theorem answers_of_ordered (h : t.root.Ordered) (path : String) : t.Answers path := by
  -- the entry at the keys of a path is what its names lead to
  have hvalue (v : Value) : entryAt? t.root ((namesIn path).map nameKey) = some (.value v) ↔
      t.root.Holds (namesIn path) v := Class.entryAt_eq_value h
  have hgroup (c : Class) := Class.entryAt_eq_group (e := c) h (namesIn_ne_nil path)
  have hlookup (hp : "" ∉ namesIn path) : t.lookup path =
      orNotFound path (entryAt? t.root ((namesIn path).map nameKey)) := by
    rw [lookup_eq, if_neg hp]
  refine ⟨?_, ?_, ?_, ?_, get_eq_ok_iff t path, ?_⟩
  · rw [lookup_eq]
    split_ifs with hp
    · exact iff_of_true rfl hp
    · refine iff_of_false ?_ hp
      cases entryAt? t.root ((namesIn path).map nameKey) <;> simp [orNotFound]
  · intro hp v
    rw [hlookup hp, orNotFound_eq_ok, hvalue]
  · intro hp c
    rw [hlookup hp, orNotFound_eq_ok, hgroup]
  · intro hp
    rw [hlookup hp, orNotFound_eq_error]
    constructor
    · intro hnone
      have hno (v : Value) : ¬t.root.Holds (namesIn path) v := by
        rw [← hvalue, hnone]
        simp
      refine ⟨hno, fun c hc => ?_⟩
      -- with no value in the way, a class would have been the entry
      have hsome := (hgroup c).mpr ⟨hno, hc⟩
      rw [hnone] at hsome
      exact absurd hsome (Option.some_ne_none _).symm
    · rintro ⟨hv, hc⟩
      cases hentry : entryAt? t.root ((namesIn path).map nameKey) with
      | none => rfl
      | some entry =>
        cases entry with
        | value v => exact absurd ((hvalue v).mp hentry) (hv v)
        | group c => exact absurd ((hgroup c).mp hentry).2 (hc c)
  · intro hp c
    rw [classAt_eq, if_neg hp, orNotFound_eq_ok]
    exact Class.at_eq_some_iff h

/-- What a merged tree answers to a path is right, and nothing in the tree is out of reach: to every
class and to every property there is the path of the names that lead to it, in any case. -/
theorem merged_answers (fragments : List (String × Forest)) (t : Tree)
    (hf : ∀ f ∈ fragments, ∃ text, Fragment.parse text = .ok f.2)
    (hm : merge fragments = .ok t) :
    (∀ path, t.Answers path) ∧
      (∀ names c, names ≠ [] → t.root.Reaches names c →
        t.classAt (".".intercalate names) = .ok c ∧
          ((∀ v, ¬t.root.Holds names v) → t.lookup (".".intercalate names) = .ok (.group c))) ∧
      ∀ names v, t.root.Holds names v →
        t.lookup (".".intercalate names) = .ok (.value v) ∧
          t.get (".".intercalate names) = .ok v := by
  have hproper : ∀ f ∈ fragments, Forest.Proper f.2 := fun f hfm =>
    let ⟨_, hparse⟩ := hf f hfm
    Fragment.proper_of_parse hparse
  have ho : t.root.Ordered := (proper_merge hproper hm).root
  have hanswers := answers_of_ordered ho
  -- the names of something in the tree are those in the path that they make
  have hpath (names : List String) (hn : names ≠ []) (hc : ∀ name ∈ names,
      name ≠ "" ∧ '.' ∉ name.toList ∧ ∀ c ∈ name.toList, isBlank c = false) :
      namesIn (".".intercalate names) = names ∧ "" ∉ namesIn (".".intercalate names) := by
    have hnames := namesIn_intercalate hn hc
    refine ⟨hnames, ?_⟩
    rw [hnames]
    exact fun hm => (hc "" hm).1 rfl
  refine ⟨hanswers, ?_, ?_⟩
  · intro names c hn hc
    obtain ⟨hnames, hvalid⟩ := hpath names hn (hc.clean ho)
    have hclass := (hanswers (".".intercalate names)).classAt hvalid c
    have hgroup := (hanswers (".".intercalate names)).group hvalid c
    rw [hnames] at hclass hgroup
    exact ⟨hclass.mpr hc, fun hv => hgroup.mpr ⟨hv, hc⟩⟩
  · intro names v hv
    have hn : names ≠ [] := by
      obtain ⟨front, last, d, rfl, _⟩ := hv
      exact List.append_ne_nil_of_right_ne_nil front (List.cons_ne_nil last [])
    obtain ⟨hnames, hvalid⟩ := hpath names hn (hv.clean ho)
    have hlookup := (hanswers (".".intercalate names)).value hvalid v
    rw [hnames] at hlookup
    exact ⟨hlookup.mpr hv, (get_eq_ok_iff t _ v).mpr (hlookup.mpr hv)⟩

-- The class `X` of `class A{x=1;class X{y=2;};};`.
def hidden : Class := ⟨"X", none, [⟨"y", .scalar (.number "2")⟩], []⟩

def veiled : Tree := ⟨⟨"", none, [], [⟨"A", none, [⟨"x", .scalar (.number "1")⟩], [hidden]⟩]⟩⟩

theorem merged_answers_hidden : ∃ forest,
    Fragment.parse "class A{x=1;class X{y=2;};};" = .ok forest ∧
    merge [("core.cpp", forest)] = .ok veiled ∧
    veiled.lookup " a . X" = .ok (.value (.scalar (.number "1"))) ∧
    veiled.classAt "A.x" = .ok hidden ∧
    veiled.get "A.X.Y" = .ok (.scalar (.number "2")) ∧
    veiled.lookup "A. .x" = .error (.invalidPath "A. .x") := by
  obtain ⟨forest, hforest, htest⟩ : ∃ forest,
      Fragment.parse "class A{x=1;class X{y=2;};};" = .ok forest ∧
        decide (merge [("core.cpp", forest)] = .ok veiled) = true :=
    Attempt.exists_ok (by decide +kernel)
  have hmerge := of_decide_eq_true htest
  have hreaches : veiled.root.Reaches ["A", "x"] hidden :=
    .inside (List.mem_singleton_self _) rfl
      (.inside (List.mem_singleton_self _) (by cbv) (.here hidden))
  have hnames : namesIn " a . X" = ["a", "X"] := by decide +kernel
  have hx : veiled.root.Holds (namesIn " a . X") (.scalar (.number "1")) := by
    rw [hnames]
    exact ⟨["a"], "X", _, rfl, .inside (List.mem_singleton_self _) (by cbv) (.here _),
      _, List.mem_singleton_self _, by cbv, rfl⟩
  have hy : veiled.root.Holds ["A", "X", "Y"] (.scalar (.number "2")) :=
    ⟨["A", "X"], "Y", hidden, rfl, .inside (List.mem_singleton_self _) rfl
      (.inside (List.mem_singleton_self _) rfl (.here hidden)),
      _, List.mem_singleton_self _, by cbv, rfl⟩
  obtain ⟨hanswers, hclasses, hvalues⟩ := merged_answers [("core.cpp", forest)] veiled
    (List.forall_mem_singleton.mpr ⟨_, hforest⟩) hmerge
  refine ⟨forest, hforest, hmerge, ?_, ?_, ?_, ?_⟩
  · exact ((hanswers " a . X").value (by rw [hnames]; decide) _).mpr hx
  · exact (hclasses _ _ (List.cons_ne_nil _ _) hreaches).1
  · exact (hvalues _ _ hy).2
  · exact (hanswers "A. .x").invalid.mpr (by decide +kernel)

end Tree

end Overlay
