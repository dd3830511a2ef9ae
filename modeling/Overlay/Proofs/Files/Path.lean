import Overlay.Files.Load
import Overlay.Proofs.Text.Split
import Mathlib.Data.List.Lex
import Mathlib.Data.List.Perm.Basic

namespace Overlay

namespace Component

def text : Component → String
  | name s => s
  | _ => ""

/-- Components are ordered by their kind and then by their text. -/
theorem compare_eq : Component.compare = compareLex (compareOn rank) (compareOn text) := by
  funext a b
  cases a with
  | name s =>
    cases b with
    | name t => simp [Component.compare, compareLex, compareOn, rank, text]
    | _ => rfl
  | _ => cases b <;> rfl

instance : Std.TransCmp Component.compare := compare_eq ▸ inferInstance

instance : Std.LawfulEqCmp Component.compare where
  compare_self := Std.ReflCmp.compare_self
  eq_of_compare {a b} h := by
    rw [compare_eq, compareLex_eq_eq] at h
    obtain ⟨hrank, htext⟩ := h
    have hrank : a.rank = b.rank := Std.compare_eq_iff_eq.mp hrank
    have htext : a.text = b.text := Std.compare_eq_iff_eq.mp htext
    cases a <;> cases b <;> simp_all [rank, text]

end Component

namespace Path

/-- A path comes before another one: it is continued by it, or at the first place where they differ
it has the component that comes first. -/
def Before (a b : String) : Prop :=
  List.Lex (fun c d => c.compare d = .lt) (components a) (components b)

theorem compareComponents_eq : compareComponents = List.compareLex Component.compare := by
  funext as bs
  induction as generalizing bs with
  | nil => cases bs <;> rfl
  | cons a as ih =>
    cases bs with
    | nil => rfl
    | cons b bs => rw [compareComponents, List.compareLex_cons_cons, ih]

instance : Std.TransCmp compareComponents := compareComponents_eq ▸ inferInstance

instance : Std.LawfulEqCmp compareComponents := compareComponents_eq ▸ inferInstance

instance : Std.TransCmp compare where
  eq_swap {a b} := by
    rw [compare, compare]
    exact Std.OrientedCmp.eq_swap
  isLE_trans {a b c} hab hbc := by
    rw [compare] at hab hbc ⊢
    exact Std.TransCmp.isLE_trans hab hbc

/-- Two paths are equal in the order exactly if they have the same components. -/
theorem compare_eq_eq_iff {a b : String} :
    compare a b = .eq ↔ components a = components b := by
  rw [compare, Std.LawfulEqCmp.compare_eq_iff_eq]

/-- Lists of components are ordered like words in a dictionary. -/
theorem compareComponents_lt_iff {as bs : List Component} : compareComponents as bs = .lt ↔
    List.Lex (fun c d => c.compare d = .lt) as bs := by
  induction as generalizing bs with
  | nil =>
    cases bs with
    | nil => simp [compareComponents]
    | cons b bs => simp [compareComponents]
  | cons a as ih =>
    cases bs with
    | nil => simp [compareComponents]
    | cons b bs =>
      rw [compareComponents, Ordering.then_eq_lt, ih, Std.LawfulEqCmp.compare_eq_iff_eq]
      constructor
      · rintro (hlt | ⟨rfl, hrest⟩)
        · exact .rel hlt
        · exact .cons hrest
      · intro h
        cases h with
        | rel hlt => exact Or.inl hlt
        | cons hrest => exact Or.inr ⟨rfl, hrest⟩

/-- The order of paths that is computed is the order that is described. -/
theorem compare_lt_iff {a b : String} : compare a b = .lt ↔ Before a b := compareComponents_lt_iff

theorem Before.trans {a b c : String} (hab : Before a b) (hbc : Before b c) : Before a c := by
  rw [← compare_lt_iff] at hab hbc ⊢
  exact Std.TransCmp.lt_trans hab hbc

theorem Before.asymm {a b : String} (h : Before a b) : ¬ Before b a := by
  rw [← compare_lt_iff] at h ⊢
  intro hba
  have hgt : compare b a = .gt := Std.OrientedCmp.gt_of_lt h
  rw [hba] at hgt
  cases hgt

theorem Before.components_ne {a b : String} (h : Before a b) : components a ≠ components b := by
  rw [← compare_lt_iff] at h
  intro heq
  rw [compare_eq_eq_iff.mpr heq] at h
  cases h

theorem before_of_isLE {a b : String} (h : (compare a b).isLE = true)
    (hn : components a ≠ components b) : Before a b := by
  rw [← compare_lt_iff]
  have hne : compare a b ≠ .eq := compare_eq_eq_iff.not.mpr hn
  cases hc : compare a b with
  | lt => rfl
  | eq => exact absurd hc hne
  | gt => simp [hc] at h

/-- Ascending lists that have the same sequences of components have them in the same places. -/
theorem components_eq_of_ascending {found other : List String} (hf : found.Pairwise Before)
    (ho : other.Pairwise Before)
    (h : ∀ cs, cs ∈ found.map components ↔ cs ∈ other.map components) :
    found.map components = other.map components := by
  have hnodup {paths : List String} (hp : paths.Pairwise Before) :
      (paths.map components).Nodup := List.pairwise_map.mpr (hp.imp Before.components_ne)
  have hperm : (found.map components).Perm (other.map components) :=
    (List.perm_ext_iff_of_nodup (hnodup hf) (hnodup ho)).mpr h
  refine hperm.eq_of_pairwise ?_ (List.pairwise_map.mpr hf) (List.pairwise_map.mpr ho)
  intro as bs ha hb hab hba
  obtain ⟨a, -, rfl⟩ := List.mem_map.mp ha
  obtain ⟨b, -, rfl⟩ := List.mem_map.mp hb
  exact absurd hba (Before.asymm hab)

def below (path : String) (names : List String) : String := names.foldl join path

/-- What follows the last point of a name, if something stands in front of that point. -/
def HasExtension (name ext : String) : Prop :=
  ∃ stem, stem ≠ "" ∧ name = stem ++ "." ++ ext ∧ '.' ∉ ext.toList

/-- A point at the beginning does not count. -/
theorem extension_of_split {stem ext : List Char} (h : '.' ∉ ext) :
    extension? (.ofList (stem ++ '.' :: ext)) = if stem = [] then none else some (.ofList ext) := by
  rw [extension?, String.toList_ofList, Text.splitOn_snoc h, List.reverse_append,
    List.reverse_singleton, List.singleton_append]
  by_cases hstem : stem = []
  · subst hstem
    rfl
  · rw [if_neg hstem]
    have hparts : Text.splitOn '.' stem ≠ [[]] := by
      intro he
      have hjoin := Text.joinWith_splitOn '.' stem
      rw [he] at hjoin
      exact hstem hjoin.symm
    -- the second part from behind is there, and it is not the empty first one
    cases hs : (Text.splitOn '.' stem).reverse with
    | nil => exact absurd (List.reverse_eq_nil_iff.mp hs) (Text.splitOn_ne_nil _ _)
    | cons part parts =>
      cases part with
      | cons c cs => rfl
      | nil =>
        cases parts with
        | cons next parts => rfl
        | nil => exact absurd (List.reverse_eq_iff.mp hs) hparts

/-- The extension that is computed is the one that is described. -/
theorem extension_eq_some_iff {name ext : String} :
    extension? name = some ext ↔ HasExtension name ext := by
  constructor
  · intro h
    by_cases hpoint : '.' ∈ name.toList
    -- the last point cuts off the extension
    · obtain ⟨back, front, hsplit, hback⟩ :=
        List.eq_append_cons_of_mem (List.mem_reverse.mpr hpoint)
      have hname : name.toList = front.reverse ++ '.' :: back.reverse := by
        rw [← List.reverse_reverse name.toList, hsplit]
        simp
      have hback : '.' ∉ back.reverse := mt List.mem_reverse.mp hback
      rw [← String.ofList_toList (s := name), hname, extension_of_split hback] at h
      split_ifs at h with hstem
      refine ⟨.ofList front.reverse, ?_, ?_, ?_⟩
      · intro he
        exact hstem (by simpa using congrArg String.toList he)
      · rw [← Option.some.inj h, ← String.toList_inj]
        simp [hname]
      · rw [← Option.some.inj h, String.toList_ofList]
        exact hback
    · rw [extension?, Text.splitOn_of_not_mem hpoint] at h
      cases h
  · rintro ⟨stem, hstem, rfl, hext⟩
    have hname : stem ++ "." ++ ext = .ofList (stem.toList ++ '.' :: ext.toList) := by
      rw [← String.toList_inj]
      simp
    have hne : stem.toList ≠ [] := fun he => hstem (String.toList_inj.mp he)
    rw [hname, extension_of_split hext, if_neg hne, String.ofList_toList]

theorem not_slash_of_mem_segments {path segment : String} (h : segment ∈ segments path) :
    '/' ∉ segment.toList := by
  obtain ⟨cs, hcs, rfl⟩ := List.mem_map.mp h
  rw [String.toList_ofList]
  exact Text.not_mem_of_mem_splitOn hcs

theorem not_slash_fileName (path : String) : '/' ∉ (fileName path).toList := by
  apply not_slash_of_mem_segments
  rw [fileName, List.getLastD_eq_getLast?, List.getLast?_eq_some_getLast, Option.getD_some]
  · exact List.getLast_mem _
  · exact List.map_eq_nil_iff.not.mpr (Text.splitOn_ne_nil _ _)

theorem fileName_of_toList {path name : String} (h : '/' ∉ name.toList) (front : List Char)
    (hp : path.toList = front ++ '/' :: name.toList) : fileName path = name := by
  rw [fileName, segments, hp, Text.splitOn_snoc h, List.map_append, List.map_singleton,
    String.ofList_toList, List.getLastD_concat]

/-- A name without slashes is found again at the end of the path that it is joined to. -/
theorem fileName_join {name : String} (h : '/' ∉ name.toList) (path : String) :
    fileName (join path name) = name := by
  have hslash : name.startsWith "/" = false := by
    rw [Bool.eq_false_iff]
    intro hstart
    have hpre := String.startsWith_string_iff.mp hstart
    exact h (hpre.subset (by simp))
  rw [join, hslash, Bool.false_or]
  split_ifs with hempty hend
  · rw [fileName, segments, Text.splitOn_of_not_mem h, List.map_singleton, String.ofList_toList]
    rfl
  · rw [← String.endsWith_toSlice, String.Slice.endsWith_string_iff] at hend
    obtain ⟨front, hfront⟩ := hend
    refine fileName_of_toList h front ?_
    have hpath : path.toList = front ++ ['/'] := by simpa using hfront.symm
    rw [String.toList_append, hpath]
    simp
  · exact fileName_of_toList h path.toList (by simp)

end Path

namespace Disk
open Overlay.Path (Before)

variable {paths : List String} {path : String}

theorem dropRepeats_sublist (paths : List String) : (dropRepeats paths).Sublist paths := by
  induction paths with
  | nil => exact .slnil
  | cons path rest ih =>
    rw [dropRepeats]
    split
    · exact List.singleton_sublist.mpr List.mem_cons_self
    · rename_i next more hrest
      rw [hrest] at ih
      split_ifs
      · exact ((List.sublist_cons_self next more).trans ih).cons_cons path
      · exact ih.cons_cons path

/-- A path that is dropped has the components of one that is kept. -/
theorem exists_kept (h : path ∈ paths) :
    ∃ kept ∈ dropRepeats paths, Path.components kept = Path.components path := by
  induction paths with
  | nil => cases h
  | cons first rest ih =>
    rw [dropRepeats]
    split
    · rename_i hnone
      rcases List.mem_cons.mp h with rfl | h
      · exact ⟨path, List.mem_singleton_self path, rfl⟩
      · obtain ⟨kept, hk, -⟩ := ih h
        rw [hnone] at hk
        cases hk
    · rename_i next more hrest
      split_ifs with heq
      · rcases List.mem_cons.mp h with rfl | h
        · exact ⟨path, List.mem_cons_self, rfl⟩
        · obtain ⟨kept, hk, hcomponents⟩ := ih h
          rw [hrest] at hk
          rcases List.mem_cons.mp hk with rfl | hk
          · exact ⟨first, List.mem_cons_self, (Path.compare_eq_eq_iff.mp heq).trans hcomponents⟩
          · exact ⟨kept, List.mem_cons_of_mem _ hk, hcomponents⟩
      · rcases List.mem_cons.mp h with rfl | h
        · exact ⟨path, List.mem_cons_self, rfl⟩
        · obtain ⟨kept, hk, hcomponents⟩ := ih h
          rw [hrest] at hk
          exact ⟨kept, List.mem_cons_of_mem _ hk, hcomponents⟩

/-- Without repetitions, paths in order ascend strictly. -/
theorem dropRepeats_ascending (h : paths.Pairwise fun a b => (Path.compare a b).isLE = true) :
    (dropRepeats paths).Pairwise Before := by
  induction paths with
  | nil => exact List.Pairwise.nil
  | cons path rest ih =>
    obtain ⟨hpath, hrest⟩ := List.pairwise_cons.mp h
    have ih := ih hrest
    have hsub := dropRepeats_sublist rest
    rw [dropRepeats]
    split
    · exact List.pairwise_singleton _ _
    · rename_i next more hkept
      rw [hkept] at ih hsub
      obtain ⟨hnext, hmore⟩ := List.pairwise_cons.mp ih
      have hle := hpath next (hsub.subset List.mem_cons_self)
      -- of equal paths the one in front stays
      split_ifs with heq
      · refine List.pairwise_cons.mpr ⟨?_, hmore⟩
        intro q hq
        have hlt := Path.compare_lt_iff.mpr (hnext q hq)
        exact Path.compare_lt_iff.mp (Std.TransCmp.lt_of_eq_of_lt heq hlt)
      · have hbefore : Before path next :=
          Path.before_of_isLE hle (Path.compare_eq_eq_iff.not.mp heq)
        refine List.pairwise_cons.mpr ⟨?_, ih⟩
        intro q hq
        rcases List.mem_cons.mp hq with rfl | hq
        · exact hbefore
        · exact hbefore.trans (hnext q hq)

theorem arrange_ascending (paths : List String) : (arrange paths).Pairwise Before := by
  apply dropRepeats_ascending
  apply List.pairwise_mergeSort
  · intro a b c hab hbc
    exact Std.TransCmp.isLE_trans hab hbc
  · intro a b
    have hswap : Path.compare b a = (Path.compare a b).swap := Std.OrientedCmp.eq_swap
    rw [hswap]
    cases Path.compare a b <;> rfl

theorem mem_of_mem_arrange (h : path ∈ arrange paths) : path ∈ paths :=
  List.mem_mergeSort.mp ((dropRepeats_sublist _).subset h)

/-- Of every path that is arranged one with the same components is kept. -/
theorem exists_arranged (h : path ∈ paths) :
    ∃ kept ∈ arrange paths, Path.components kept = Path.components path :=
  exists_kept (List.mem_mergeSort.mpr h)

end Disk

end Overlay
