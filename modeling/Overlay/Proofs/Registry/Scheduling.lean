import Overlay.Proofs.Registry
import Overlay.Session

/-! The order in which records arrive at the registry. It never decides which records lose their
key, but with three claimants of one key it decides which of the others the error names: the
holder at the moment of the conflict may lose the key later. -/
namespace Overlay.Registry
open scoped List

def errorsOf (records : List Record) : List FragmentError :=
  Session.sortErrors (empty.insertAll records).2

def claimed? : FragmentError.Cause → Option String
  | .duplicate identity _ => some identity
  | _ => none

/-- An error but for the holder that it names: the source, the place and the identity. -/
def blamed (e : FragmentError) : String × Nat × Option String :=
  (e.source, e.index, claimed? e.cause)

/-- An error with no holder filled in. Only that of a duplicate names one. -/
def withoutHolder (e : FragmentError) : FragmentError :=
  match e.cause with
  | .duplicate identity _ => { e with cause := .duplicate identity "" }
  | _ => e

@[simp]
theorem index_withoutHolder (e : FragmentError) : (withoutHolder e).index = e.index := by
  rw [withoutHolder]
  cases e.cause <;> rfl

/-- Of three records with one key the first two come from the same source. -/
def HoldersAgree (records : List Record) : Prop :=
  ∀ a ∈ records, ∀ b ∈ records, ∀ c ∈ records, keyOf a = keyOf b → keyOf b = keyOf c →
    a.index < b.index → b.index < c.index → a.source = b.source

theorem errorsOf_perm (records : List Record) : errorsOf records ~ (empty.insertAll records).2 :=
  List.mergeSort_perm _ _

theorem sortErrors_ascending (errors : List FragmentError) :
    (Session.sortErrors errors).Pairwise fun a b => a.index ≤ b.index := by
  have h : (Session.sortErrors errors).Pairwise fun a b =>
      decide (a.index ≤ b.index) = true := by
    apply List.pairwise_mergeSort
    · intro a b c hab hbc
      rw [decide_eq_true_eq] at hab hbc ⊢
      exact hab.trans hbc
    · intro a b
      rw [Bool.or_eq_true, decide_eq_true_eq, decide_eq_true_eq]
      exact Nat.le_total _ _
  exact h.imp fun hab => decide_eq_true_eq.mp hab

theorem errorsOf_ascending (records : List Record) :
    (errorsOf records).Pairwise fun a b => a.index ≤ b.index := sortErrors_ascending _

variable {records : List Record}

theorem index_nodup_of_errors (hd : (records.map Record.index).Nodup) :
    ((errorsOf records).map FragmentError.index).Nodup := by
  obtain ⟨conflicts, he, hl, _⟩ := conflicts_of_insertAll hd
  have hm : (errorsOf records).map FragmentError.index ~
      (records.filter fun x => (rival? records x).isSome).map Record.index := by
    refine ((errorsOf_perm records).map _).trans ?_
    rw [he, List.map_map]
    simpa [Function.comp_def, Conflict.error, duplicate] using hl.map Record.index
  exact hm.nodup_iff.mpr ((List.filter_sublist.map _).nodup hd)

/-- Two lists of errors are equal if they are permutations of each other, sorted, and blame no
input twice. -/
theorem eq_of_perm_of_index {α : Type} (index : α → Nat) {as bs : List α} (hp : as ~ bs)
    (hd : (as.map index).Nodup) (ha : as.Pairwise fun a b => index a ≤ index b)
    (hb : bs.Pairwise fun a b => index a ≤ index b) : as = bs := by
  refine hp.eq_of_pairwise ?_ ha hb
  intro a b hma hmb hab hba
  exact List.inj_on_of_nodup_map hd hma (hp.mem_iff.mpr hmb) (Nat.le_antisymm hab hba)

/-- Who has a rival does not depend on the order of the records. -/
theorem isSome_rival_perm {first second : List Record} (h : first ~ second) (x : Record) :
    (rival? first x).isSome = (rival? second x).isSome := by
  rw [Bool.eq_iff_iff, isSome_rival, isSome_rival]
  simp only [h.mem_iff]

/-- The records that have a rival are the same ones in whichever order they come. -/
theorem rivals_perm {first second : List Record} (h : first ~ second) :
    first.filter (fun x => (rival? first x).isSome) ~
      second.filter (fun x => (rival? second x).isSome) := by
  simp only [isSome_rival_perm h]
  exact h.filter _

/-- In whichever order records arrive, the errors are the same in all that does not depend on the
holders. -/
theorem map_errors_perm {α : Type} {f : FragmentError → α} {first second : List Record}
    (hf : ∀ x a b, f (duplicate x a) = f (duplicate x b))
    (hd : (first.map Record.index).Nodup) (h : first ~ second) :
    (empty.insertAll first).2.map f ~ (empty.insertAll second).2.map f := by
  -- what is said of a record that has a rival, whoever that is
  have hsaid (xs : List Record) (hx : (xs.map Record.index).Nodup) :
      (empty.insertAll xs).2.map f ~ (xs.filter fun x => (rival? xs x).isSome).map
        fun x => f (duplicate x x) := by
    obtain ⟨conflicts, he, hl, -⟩ := conflicts_of_insertAll hx
    rw [he, List.map_map]
    refine List.Perm.trans (List.Perm.of_eq ?_) (hl.map fun x => f (duplicate x x))
    rw [List.map_map]
    exact List.map_congr_left fun c _ => hf c.loser c.rival c.loser
  have hd' : (second.map Record.index).Nodup := (h.map _).nodup_iff.mp hd
  exact (hsaid first hd).trans (((rivals_perm h).map _).trans (hsaid second hd').symm)

/-- In whichever order records arrive, the same ones are reported. -/
theorem blamed_errors_perm {first second : List Record} (hd : (first.map Record.index).Nodup)
    (h : first ~ second) : (errorsOf first).map blamed = (errorsOf second).map blamed := by
  have hasc (xs : List Record) : ((errorsOf xs).map blamed).Pairwise fun a b => a.2.1 ≤ b.2.1 :=
    List.pairwise_map.mpr (errorsOf_ascending xs)
  have hblamed := map_errors_perm (f := blamed) (fun _ _ _ => rfl) hd h
  refine eq_of_perm_of_index (fun b => b.2.1) ?_ ?_ (hasc first) (hasc second)
  · exact ((errorsOf_perm first).map _).trans (hblamed.trans ((errorsOf_perm second).map _).symm)
  · simpa [List.map_map, Function.comp_def, blamed] using index_nodup_of_errors hd

def firstError (records : List Record) (x : Record) : FragmentError :=
  duplicate x ((rival? records x).getD x)

/-- Where the holders agree, an error does not tell which of them it was that held the key. -/
theorem error_eq_firstError (hd : (records.map Record.index).Nodup) (ha : HoldersAgree records)
    {c : Conflict} (hl : c.loser ∈ records) (hr : c.rival ∈ records) (hs : c.Settled) :
    c.error = firstError records c.loser := by
  have hsome : (rival? records c.loser).isSome := isSome_rival.mpr ⟨c.rival, hr, hs⟩
  obtain ⟨y, hy⟩ := Option.isSome_iff_exists.mp hsome
  have hym : y ∈ records := List.mem_of_find?_eq_some hy
  obtain ⟨hyk, hyi⟩ : keyOf y = keyOf c.loser ∧ y.index < c.loser.index := by
    simpa [rival?] using List.find?_some hy
  have hsource : c.rival.source = y.source := by
    rcases Nat.lt_trichotomy c.rival.index y.index with hlt | heq | hgt
    · exact ha _ hr _ hym _ hl (hs.1.trans hyk.symm) hyk hlt hyi
    · exact congrArg Record.source (List.inj_on_of_nodup_map hd hr hym heq)
    · exact (ha _ hym _ hr _ hl (hyk.trans hs.1.symm) hs.1 hgt hs.2).symm
  simp only [Conflict.error, firstError, hy, Option.getD_some, duplicate, hsource]

theorem errors_eq_firstErrors {xs : List Record} (hd : (records.map Record.index).Nodup)
    (ha : HoldersAgree records) (hp : xs ~ records) :
    errorsOf xs ~ (records.filter fun x => (rival? records x).isSome).map (firstError records) := by
  have hdx : (xs.map Record.index).Nodup := (hp.map _).nodup_iff.mpr hd
  obtain ⟨conflicts, he, hl, hc⟩ := conflicts_of_insertAll hdx
  have herr : conflicts.map Conflict.error =
      (conflicts.map Conflict.loser).map (firstError records) := by
    rw [List.map_map]
    apply List.map_congr_left
    intro c hcm
    have hmem : c.loser ∈ xs := by
      apply List.mem_of_mem_filter (p := fun x => (rival? xs x).isSome)
      exact hl.mem_iff.mp (List.mem_map_of_mem hcm)
    exact error_eq_firstError hd ha (hp.mem_iff.mp hmem) (hp.mem_iff.mp (hc c hcm).2) (hc c hcm).1
  calc
    errorsOf xs ~ (empty.insertAll xs).2 := errorsOf_perm xs
    _ = (conflicts.map Conflict.loser).map (firstError records) := he.trans herr
    _ ~ _ := (hl.trans (rivals_perm hp)).map _

/-- A record that arrives directly behind a rival is reported with that rival's source. -/
theorem duplicate_mem_errorsOf {a c : Record} (rest : List Record) (hk : keyOf a = keyOf c)
    (hi : a.index < c.index) : duplicate c a ∈ errorsOf (a :: c :: rest) := by
  apply (errorsOf_perm _).mem_iff.mpr
  have hplace : place c [a] = ([a], some (duplicate c a)) := by
    simp [place, hk, Nat.not_lt.mpr (Nat.le_of_lt hi)]
  simp [insertAll, insert, empty, place, hplace]

/-- Two records can be brought to the front. -/
theorem perm_front {a c : Record} (ha : a ∈ records) (hc : c ∈ records) (hne : c ≠ a) :
    a :: c :: (records.erase a).erase c ~ records := by
  have hc' : c ∈ records.erase a := (List.mem_erase_of_ne hne).mpr hc
  exact ((List.perm_cons_erase hc').symm.cons a).trans (List.perm_cons_erase ha).symm

/-- The order of arrival never matters to which records are reported. It does not matter to the
whole errors exactly if, of any three claimants of a key, the two earlier inputs have one source:
then the errors name the same holder, whoever holds the key when a record is refused. -/
theorem errors_independent_iff (records : List Record) (hd : (records.map Record.index).Nodup) :
    (∀ first second : List Record, first ~ records → second ~ records →
      (errorsOf first).map blamed = (errorsOf second).map blamed) ∧
    ((∀ first second : List Record, first ~ records → second ~ records →
      errorsOf first = errorsOf second) ↔ HoldersAgree records) := by
  have hdp (xs : List Record) (hp : xs ~ records) : (xs.map Record.index).Nodup :=
    (hp.map _).nodup_iff.mpr hd
  refine ⟨?_, ?_, ?_⟩
  · intro first second hf hs
    exact blamed_errors_perm (hdp first hf) (hf.trans hs.symm)
  · intro h a ha b hb c hc hab hbc hlt hlt'
    have hne (x : Record) (hx : x.index < c.index) : c ≠ x := fun he =>
      Nat.lt_irrefl _ (he ▸ hx)
    have hpa := perm_front ha hc (hne a (hlt.trans hlt'))
    -- the last of the three comes behind either of the others, which holds the key then
    have hpb := perm_front hb hc (hne b hlt')
    have hea := duplicate_mem_errorsOf ((records.erase a).erase c) (hab.trans hbc)
      (hlt.trans hlt')
    have heb := duplicate_mem_errorsOf ((records.erase b).erase c) hbc hlt'
    rw [h _ _ hpa hpb] at hea
    have heq : duplicate c a = duplicate c b :=
      List.inj_on_of_nodup_map (index_nodup_of_errors (hdp _ hpb)) hea heb rfl
    simpa [duplicate] using heq
  · intro ha first second hf hs
    refine eq_of_perm_of_index FragmentError.index ?_ (index_nodup_of_errors (hdp first hf))
      (errorsOf_ascending first) (errorsOf_ascending second)
    exact (errors_eq_firstErrors hd ha hf).trans (errors_eq_firstErrors hd ha hs).symm

def coreFrom (source : String) (index : Nat) : Record :=
  ⟨"Core", true, none, none, [], [], [], source, index, ""⟩

theorem errors_of_two_sources :
    let records := [coreFrom "a" 0, coreFrom "a" 1, coreFrom "b" 2]
    (records.map Record.index).Nodup ∧
      (∀ first second : List Record, first ~ records → second ~ records →
        (errorsOf first).map blamed = (errorsOf second).map blamed) ∧
      ((∀ first second : List Record, first ~ records → second ~ records →
        errorsOf first = errorsOf second) ↔ HoldersAgree records) :=
  ⟨by decide, errors_independent_iff _ (by decide)⟩

/-- The last of three claimants is told of the first one or of the second one, depending on which
of them held the key when it was refused. -/
theorem errors_depend_on_arrival :
    ¬ ∀ records first second : List Record, (records.map Record.index).Nodup →
      first ~ records → second ~ records → errorsOf first = errorsOf second := by
  intro h
  let a := coreFrom "a" 0
  let b := coreFrom "b" 1
  let c := coreFrom "c" 2
  have heq := h [a, b, c] [a, b, c] [c, b, a] (by decide) (List.Perm.refl _) (by decide)
  have hup : errorsOf [a, b, c] = [duplicate b a, duplicate c a] := by
    simp [a, b, c, errorsOf, Session.sortErrors, insertAll, insert, place, empty, coreFrom, keyOf,
      Named.name, duplicate, List.mergeSort, List.MergeSort.Internal.splitInTwo]
  have hdown : errorsOf [c, b, a] = [duplicate b a, duplicate c b] := by
    simp [a, b, c, errorsOf, Session.sortErrors, insertAll, insert, place, empty, coreFrom, keyOf,
      Named.name, duplicate, List.mergeSort, List.MergeSort.Internal.splitInTwo]
  rw [hup, hdown] at heq
  simp [a, b, c, duplicate, coreFrom] at heq

end Overlay.Registry
