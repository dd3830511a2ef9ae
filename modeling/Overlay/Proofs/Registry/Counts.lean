import Overlay.Proofs.Registry.Resolve

namespace Overlay.Order.Progress
open scoped List

variable {g : Graph} {p : Progress} {ds : List Nat}

def reached (g : Graph) (n : Nat) : Progress := steps g n (start g)

def taken (p : Progress) : Progress :=
  match p.ready with
  | [] => p
  | i :: rest => { p with ready := rest, placed := p.placed ++ [i] }

def releases (g : Graph) (p : Progress) : List Nat := p.ready.head?.toList.flatMap (dependents g)

def readied : List Nat → Progress → List Nat
  | [], _ => []
  | d :: ds, p => (if p.missingOf d - 1 = 0 then [d] else []) ++ readied ds (p.release d)

/-- The nodes that have got ready in some steps from the start, each as often as it has. -/
def entered (g : Graph) : Nat → List Nat
  | 0 => (start g).ready
  | n + 1 => entered g n ++ readied ((reached g n).releases g) (reached g n).taken

/-- Nodes that may be released, each as often as it is listed. -/
structure Releasable (p : Progress) (ds : List Nat) : Prop where
  lt_length : ∀ d ∈ ds, d < p.missing.length
  count_le : ∀ j, ds.count j ≤ p.missingOf j
  ready_zero : ∀ j ∈ p.ready, p.missingOf j = 0

/-- A step takes the least node that is ready and releases its dependents. -/
theorem step_eq (g : Graph) (p : Progress) : p.step g = (p.releases g).foldl release p.taken := by
  rw [step, releases, taken]
  cases p.ready with
  | nil => rfl
  | cons i rest => simp

theorem steps_add (m n : Nat) (p : Progress) : steps g (m + n) p = steps g n (steps g m p) := by
  induction m generalizing p with
  | zero => rw [Nat.zero_add, steps]
  | succ m ih => rw [Nat.succ_add, steps, ih, steps]

theorem reached_succ (g : Graph) (n : Nat) : reached g (n + 1) = (reached g n).step g :=
  steps_add n 1 (start g)

/-- The invariant of the sorting loop holds behind any number of steps. -/
theorem invariant_reached (g : Graph) (n : Nat) : Invariant g (reached g n) :=
  invariant_steps (invariant_start g) n

/-- Taking a node moves it from those that are ready to those that are placed. -/
theorem taken_nodes (p : Progress) : p.taken.placed ++ p.taken.ready = p.placed ++ p.ready := by
  rw [taken]
  cases hr : p.ready with
  | nil => simp [hr]
  | cons i rest => simp

theorem Releasable.pos {d : Nat} (h : Releasable p (d :: ds)) : 0 < p.missingOf d := by
  have hc := h.count_le d
  rw [List.count_cons_self] at hc
  omega

/-- Released in front, the other nodes may still be released. -/
theorem Releasable.released {before after : List Nat} (h : Releasable p (before ++ after)) :
    Released p before (before.foldl release p) ∧ Releasable (before.foldl release p) after := by
  -- the nodes in front count along with those behind
  have hcount (j : Nat) : before.count j + after.count j ≤ p.missingOf j := by
    rw [← List.count_append]
    exact h.count_le j
  have hr : Released p before (before.foldl release p) := by
    apply released_foldl
    · exact fun d hd => h.lt_length d (List.mem_append_left after hd)
    · intro j
      have := hcount j
      omega
  refine ⟨hr, ?_, ?_, ?_⟩
  · intro d hd
    rw [hr.length]
    exact h.lt_length d (List.mem_append_right before hd)
  · intro j
    have := hcount j
    rw [hr.missing]
    omega
  · intro j hj
    rw [hr.missing]
    rcases (hr.ready j).mp hj with hready | ⟨-, he⟩
    · have := h.ready_zero j hready
      omega
    · omega

theorem perm_add_ready {i : Nat} {ready : List Nat} (h : i ∉ ready) :
    (addReady i ready).Perm (i :: ready) := by
  induction ready with
  | nil => rfl
  | cons j js ih =>
    obtain ⟨hne, hjs⟩ := not_or.mp (mt List.mem_cons.mpr h)
    rw [addReady]
    split_ifs with hlt
    · rfl
    · exact ((ih hjs).cons j).trans (List.Perm.swap i j js)

/-- Every node that gets ready by releases is new among the ready ones. -/
theorem Releasable.perm_ready (h : Releasable p ds) :
    (ds.foldl release p).ready.Perm (p.ready ++ readied ds p) := by
  induction ds generalizing p with
  | nil => simp [readied]
  | cons d ds ih =>
    have hsplit : Releasable p ([d] ++ ds) := h
    have hnext : Releasable (p.release d) ds := hsplit.released.2
    have hpos := h.pos
    have hready : (p.release d).ready.Perm
        (p.ready ++ if p.missingOf d - 1 = 0 then [d] else []) := by
      dsimp only [release]
      split_ifs with hlast
      · have hnew : d ∉ p.ready := fun hd => by
          have := h.ready_zero d hd
          omega
        exact (perm_add_ready hnew).trans (List.perm_append_singleton d p.ready).symm
      · rw [List.append_nil]
    rw [List.foldl_cons, readied, ← List.append_assoc]
    exact (ih hnext).trans (hready.append_right _)

namespace Invariant

/-- What a step has to release may be released. -/
theorem releasable (h : Invariant g p) : Releasable p.taken (p.releases g) := by
  rw [taken, releases]
  cases hr : p.ready with
  | nil =>
    refine ⟨by simp, by simp, ?_⟩
    intro j hj
    simp [hr] at hj
  | cons i rest =>
    have hi := (h.isLeast_first hr).1.2.1
    simp only [List.head?_cons, Option.toList_some, List.flatMap_cons, List.flatMap_nil,
      List.append_nil]
    refine ⟨h.dependents_lt, ?_, ?_⟩
    · intro j
      have hsplit := h.missing_split hi j
      change _ ≤ p.missingOf j
      omega
    · intro j hj
      have hready : j ∈ p.ready := hr ▸ List.mem_cons_of_mem i hj
      exact ((h.ready j).mp hready).2.2

/-- Placing a node makes the count of each node the requirements that are to come and the releases
that the step owes. -/
theorem missing_taken (h : Invariant g p) (j : Nat) : p.taken.missingOf j =
    (requires g j).countP (· ∉ p.taken.placed) + (p.releases g).count j := by
  rw [taken, releases]
  cases hr : p.ready with
  | nil => simp [h.missing]
  | cons i rest =>
    have hi := (h.isLeast_first hr).1.2.1
    have hsplit := h.missing_split hi j
    simpa [missingOf] using hsplit

theorem nodup_nodes (h : Invariant g p) : (p.placed ++ p.ready).Nodup := by
  refine h.placed_nodup.append (h.ascending.imp Nat.ne_of_lt) ?_
  intro j hp hr
  exact ((h.ready j).mp hr).2.1 hp

theorem length_nodes (h : Invariant g p) : (p.placed ++ p.ready).length ≤ g.length := by
  have hsub : (p.placed ++ p.ready).Subperm (List.range g.length) := by
    refine List.subperm_of_subset h.nodup_nodes fun j hj => List.mem_range.mpr ?_
    rcases List.mem_append.mp hj with hp | hr
    · exact h.placed_lt j hp
    · exact ((h.ready j).mp hr).1
  simpa using hsub.length_le

end Invariant

/-- Within a step, a count is what is to come behind the step and the releases that are left. -/
theorem missing_within (n : Nat) {before after : List Nat}
    (h : (reached g n).releases g = before ++ after) (j : Nat) :
    (before.foldl release (reached g n).taken).missingOf j =
      (requires g j).countP (· ∉ (reached g n).taken.placed) + after.count j := by
  have hinv := invariant_reached g n
  have hr := (h ▸ hinv.releasable).released.1
  have hcount := hinv.missing_taken j
  rw [h, List.count_append] at hcount
  rw [hr.missing, hcount]
  omega

/-- Also between the releases of one step, the count of the next node to be released is positive. -/
theorem pos_within (n : Nat) {before after : List Nat} {d : Nat}
    (h : (reached g n).releases g = before ++ d :: after) :
    0 < (before.foldl release (reached g n).taken).missingOf d := by
  have hinv := invariant_reached g n
  exact (h ▸ hinv.releasable).released.2.pos

/-- The nodes that have got ready are the placed ones and the ready ones, each once. -/
theorem entered_perm (g : Graph) (n : Nat) :
    (entered g n).Perm ((reached g n).placed ++ (reached g n).ready) := by
  induction n with
  | zero => simp [entered, reached, steps, start]
  | succ n ih =>
    have hrel := (invariant_reached g n).releasable
    have hplaced : ((reached g n).step g).placed = (reached g n).taken.placed := by
      have hall : Releasable (reached g n).taken ((reached g n).releases g ++ []) := by
        rwa [List.append_nil]
      rw [step_eq]
      exact hall.released.1.placed
    rw [entered, reached_succ, hplaced, step_eq]
    calc entered g n ++ readied ((reached g n).releases g) (reached g n).taken
      _ ~ ((reached g n).placed ++ (reached g n).ready) ++
          readied ((reached g n).releases g) (reached g n).taken := ih.append_right _
      _ = (reached g n).taken.placed ++ ((reached g n).taken.ready ++
          readied ((reached g n).releases g) (reached g n).taken) := by
        rw [← taken_nodes, List.append_assoc]
      _ ~ (reached g n).taken.placed ++
          (((reached g n).releases g).foldl release (reached g n).taken).ready :=
        hrel.perm_ready.symm.append_left _

/-- As many steps as there are nodes leave no node ready. -/
theorem ready_nil {n : Nat} (hn : g.length ≤ n) : (reached g n).ready = [] := by
  have hlength := (invariant_reached g n).length_nodes
  rw [List.length_append] at hlength
  rcases length_steps (invariant_start g) n with hstuck | hplaced
  · exact hstuck
  · have hall : (reached g n).placed.length = n := hplaced.trans (Nat.zero_add n)
    exact List.length_eq_zero_iff.mp (by omega)

/-- Further steps change nothing. -/
theorem reached_final {n : Nat} (hn : g.length ≤ n) : reached g n = final g := by
  obtain ⟨k, rfl⟩ := Nat.exists_eq_add_of_le hn
  rw [reached, steps_add]
  exact steps_of_stuck (ready_nil (Nat.le_refl g.length)) k

end Overlay.Order.Progress

namespace Overlay.Registry
open Overlay.Order.Progress

/-- How many dependencies of a record, repeated ones included, have a module that is not placed. -/
def outstanding (records : List Record) (placed : List Nat) (x : Record) : Nat :=
  x.dependencies.countP fun d => (targetIndex? records d).any fun k => decide (k ∉ placed)

/-- The requirements on nodes that are not placed are the dependencies that are outstanding. -/
theorem countP_requires {records : List Record} {i : Nat} {x : Record}
    (hi : records[i]? = some x) (placed : List Nat) :
    (Order.requires (graph records) i).countP (· ∉ placed) = outstanding records placed x := by
  rw [requires_graph hi, List.countP_filterMap, outstanding]
  congr 1
  funext d
  cases targetIndex? records d <;> rfl

/-- What the sorting loop keeps to when it has taken some steps. -/
structure Tallied (records : List Record) (n : Nat) : Prop where
  /-- Between two steps, the count of a record is what it has outstanding. -/
  count : ∀ i x, records[i]? = some x → (reached (graph records) n).missingOf i =
    outstanding records (reached (graph records) n).placed x
  /-- Within a step, its releases that are left come on top of that. -/
  within : ∀ before after, (reached (graph records) n).releases (graph records) = before ++ after →
    ∀ i x, records[i]? = some x →
      (before.foldl release (reached (graph records) n).taken).missingOf i =
        outstanding records (reached (graph records) n).taken.placed x + after.count i
  /-- No count is zero when it is lowered. -/
  positive : ∀ before i after,
    (reached (graph records) n).releases (graph records) = before ++ i :: after →
      0 < (before.foldl release (reached (graph records) n).taken).missingOf i
  entered_nodes : (entered (graph records) n).Perm
    ((reached (graph records) n).placed ++ (reached (graph records) n).ready)
  entered_once : (entered (graph records) n).Nodup
  placed_once : (reached (graph records) n).placed.Nodup
  placed_lt : ∀ i ∈ (reached (graph records) n).placed, i < records.length
  /-- There are as many steps as records at most, and the order is read off behind the last. -/
  stopped : records.length ≤ n → (reached (graph records) n).ready = [] ∧
    reached (graph records) n = final (graph records)

/-- For the dependencies of any registry, the sorting loop keeps its counts right, makes each record
ready once and places it once. -/
theorem loop_tallied (r : Registry) (n : Nat) : Tallied r.records n := by
  have hinv := invariant_reached (graph r.records) n
  have hlength : (graph r.records).length = r.records.length := List.length_map _
  constructor
  · intro i x hi
    rw [hinv.missing, countP_requires hi]
  · intro before after hs i x hi
    rw [missing_within n hs, countP_requires hi]
  · intro before i after hs
    exact pos_within n hs
  · exact entered_perm (graph r.records) n
  · exact (entered_perm (graph r.records) n).nodup_iff.mpr hinv.nodup_nodes
  · exact hinv.placed_nodup
  · intro i hi
    exact hlength ▸ hinv.placed_lt i hi
  · intro hn
    have hn : (graph r.records).length ≤ n := hlength.le.trans hn
    exact ⟨ready_nil hn, reached_final hn⟩

end Overlay.Registry
