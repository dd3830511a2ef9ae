import Overlay.Program
import Overlay.Proofs.Files.Path

namespace Overlay

def Slashless (names : List String) : Prop := ∀ name ∈ names, '/' ∉ name.toList

theorem Slashless.snoc {names : List String} {name : String} (h : Slashless names)
    (hn : '/' ∉ name.toList) : Slashless (names ++ [name]) := by
  intro other hm
  rcases List.mem_append.mp hm with hm | hm
  · exact h other hm
  · exact List.mem_singleton.mp hm ▸ hn

theorem Slashless.dropLast {names : List String} (h : Slashless names) :
    Slashless names.dropLast := fun name hm => h name (List.dropLast_subset names hm)

theorem slashless_nil : Slashless [] := fun _ hm => absurd hm List.not_mem_nil

/-- Cutting a path at its slashes leaves no slash in a segment. -/
theorem slashless_segments (path : String) : Slashless (Path.segments path) :=
  fun _ h => Path.not_slash_of_mem_segments h

namespace FileNode

/-- In every directory of a tree, the entries have names of their own, without slashes. -/
def Tidy (node : FileNode) : Prop :=
  ∀ names entries, node.at? names = some (directory entries) →
    (entries.map Prod.fst).Nodup ∧ ∀ entry ∈ entries, '/' ∉ entry.1.toList

variable {entries : List (String × FileNode)} {node inner new : FileNode} {name : String}
  {names : List String}

theorem lookup_eq_some_iff (hn : (entries.map Prod.fst).Nodup) :
    entries.lookup name = some inner ↔ (name, inner) ∈ entries := by
  induction entries with
  | nil => simp
  | cons entry rest ih =>
    obtain ⟨first, node⟩ := entry
    rw [List.map_cons, List.nodup_cons] at hn
    rw [List.lookup_cons, List.mem_cons, Prod.mk.injEq]
    by_cases heq : name = first
    · subst heq
      have hrest : (name, inner) ∉ rest := fun hm => hn.1 (List.mem_map.mpr ⟨_, hm, rfl⟩)
      simp [hrest, eq_comm]
    · have hbeq : (name == first) = false := beq_eq_false_iff_ne.mpr heq
      simp [hbeq, heq, ih hn.2]

theorem at_nil (node : FileNode) : node.at? [] = some node := by rw [at?]

/-- To follow names is to follow the first of them and then the others. -/
theorem at_append (node : FileNode) (names more : List String) :
    node.at? (names ++ more) = (node.at? names).bind fun inner => inner.at? more := by
  induction names generalizing node with
  | nil => rw [List.nil_append, at_nil, Option.bind_some]
  | cons name names ih =>
    cases node with
    | file bytes => rfl
    | directory entries =>
      rw [List.cons_append, at?, at?, Option.bind_assoc]
      simp only [ih]

/-- The first of some names leads to an entry, and the others go on inside of it. -/
theorem at_cons_eq_some (hn : (entries.map Prod.fst).Nodup) :
    (directory entries).at? (name :: names) = some node ↔
      ∃ inner, (name, inner) ∈ entries ∧ inner.at? names = some node := by
  rw [at?, Option.bind_eq_some_iff]
  simp only [lookup_eq_some_iff hn]

theorem Tidy.at (h : node.Tidy) (hi : node.at? names = some inner) : inner.Tidy := by
  intro more entries he
  apply h (names ++ more)
  rw [at_append, hi, Option.bind_some, he]

theorem Tidy.nodup (h : (directory entries).Tidy) : (entries.map Prod.fst).Nodup :=
  (h [] entries rfl).1

theorem Tidy.entry (h : (directory entries).Tidy) (he : (name, inner) ∈ entries) : inner.Tidy :=
  h.at ((at_cons_eq_some h.nodup).mpr ⟨inner, he, at_nil inner⟩)

theorem tidy_file (bytes : ByteArray) : (file bytes).Tidy := by
  intro names entries h
  cases names <;> cases h

theorem tidy_directory (hn : (entries.map Prod.fst).Nodup)
    (h : ∀ entry ∈ entries, '/' ∉ entry.1.toList ∧ entry.2.Tidy) : (directory entries).Tidy := by
  intro names inside hat
  cases names with
  | nil =>
    obtain rfl := directory.inj (Option.some.inj hat)
    exact ⟨hn, fun entry he => (h entry he).1⟩
  | cons name names =>
    obtain ⟨inner, he, hi⟩ := (at_cons_eq_some hn).mp hat
    exact (h (name, inner) he).2 names inside hi

/-- The last of the names that lead to something has no slash. -/
theorem Tidy.last_name (h : node.Tidy) (hi : node.at? (names ++ [name]) = some inner) :
    '/' ∉ name.toList := by
  rw [at_append] at hi
  obtain ⟨above, habove, hlast⟩ := Option.bind_eq_some_iff.mp hi
  cases above with
  | file bytes => cases hlast
  | directory entries =>
    obtain ⟨hn, hslash⟩ := h names entries habove
    obtain ⟨found, hfound, -⟩ := (at_cons_eq_some hn).mp hlast
    exact hslash _ hfound

theorem mem_put {entry : String × FileNode} (h : entry ∈ Entries.put name new entries) :
    entry = (name, new) ∨ entry ∈ entries := by
  induction entries with
  | nil => exact Or.inl (List.mem_singleton.mp h)
  | cons first rest ih =>
    obtain ⟨other, old⟩ := first
    rw [Entries.put] at h
    split_ifs at h with heq
    · subst heq
      exact (List.mem_cons.mp h).imp_right (List.mem_cons_of_mem _)
    · rcases List.mem_cons.mp h with rfl | h
      · exact Or.inr List.mem_cons_self
      · exact (ih h).imp_right (List.mem_cons_of_mem _)

/-- Putting an entry under a name keeps the names of the entries apart. -/
theorem nodup_put (h : (entries.map Prod.fst).Nodup) :
    ((Entries.put name new entries).map Prod.fst).Nodup := by
  induction entries with
  | nil => exact List.pairwise_singleton _ name
  | cons first rest ih =>
    obtain ⟨other, old⟩ := first
    obtain ⟨hother, hrest⟩ := List.nodup_cons.mp h
    rw [Entries.put]
    split_ifs with heq
    · exact h
    · refine List.nodup_cons.mpr ⟨?_, ih hrest⟩
      intro hm
      obtain ⟨entry, he, hname⟩ := List.mem_map.mp hm
      rcases mem_put he with rfl | he
      · exact heq hname.symm
      · exact hother (List.mem_map.mpr ⟨entry, he, hname⟩)

/-- A tidy directory stays tidy if it is given a tidy entry. -/
theorem Tidy.put_entry (h : (directory entries).Tidy) (hn : new.Tidy) (hs : '/' ∉ name.toList) :
    (directory (Entries.put name new entries)).Tidy := by
  apply tidy_directory (nodup_put h.nodup)
  intro entry he
  rcases mem_put he with rfl | he
  · exact ⟨hs, hn⟩
  · exact ⟨(h [] entries rfl).2 entry he, h.entry he⟩

/-- A tidy node that is put into a tidy tree leaves a tidy tree. -/
theorem Tidy.put (h : node.Tidy) (hn : new.Tidy) (hs : Slashless names) :
    (new.put names node).Tidy := by
  induction names generalizing node with
  | nil => exact hn
  | cons name names ih =>
    obtain ⟨hname, hs⟩ := List.forall_mem_cons.mp hs
    cases node with
    | file bytes => exact h
    | directory entries =>
      cases names with
      | nil => exact h.put_entry hn hname
      | cons next names =>
        rw [FileNode.put]
        · cases hl : entries.lookup name with
          | none => exact h
          | some inner =>
            have hi : inner.Tidy := h.entry ((lookup_eq_some_iff h.nodup).mp hl)
            exact h.put_entry (ih hi hs) hname
        · exact List.cons_ne_nil next names

/-- Making the directories along a path keeps a tree tidy. -/
theorem Tidy.makeAlong {segments here : List String} (h : node.Tidy)
    (hs : Slashless segments) (hh : Slashless here) : (node.makeAlong here segments).1.Tidy := by
  induction segments generalizing node here with
  | nil => exact h
  | cons segment rest ih =>
    obtain ⟨hsegment, hrest⟩ := List.forall_mem_cons.mp hs
    have hnames : Slashless (here ++ [segment]) := hh.snoc hsegment
    rw [FileNode.makeAlong]
    split
    · exact ih h hrest hh
    · split
      · exact ih h hrest hh.dropLast
      · dsimp only
        split
        · exact ih h hrest hnames
        · exact h
        -- nothing is there yet, so a directory is made, if it can bear the name
        · split
          · exact h
          · exact ih (h.put (tidy_directory List.nodup_nil (by simp)) hnames) hrest hnames

/-- The names that a path leads to have no slashes, whichever dots are on the way. -/
theorem slashless_follow {root : FileNode} {here segments : List String} (hh : Slashless here)
    (hs : Slashless segments) (h : root.follow here segments = some names) : Slashless names := by
  induction segments generalizing here with
  | nil =>
    rw [follow] at h
    exact Option.some.inj h ▸ hh
  | cons segment rest ih =>
    obtain ⟨hsegment, hrest⟩ := List.forall_mem_cons.mp hs
    rw [follow] at h
    split at h
    · split_ifs at h
      · exact ih hh hrest h
      · exact ih hh.dropLast hrest h
      · split at h
        · exact ih (hh.snoc hsegment) hrest h
        · cases h
    · cases h

end FileNode

namespace FileSystem

/-- The tree is tidy, and the names that lead to the working directory are names in paths. -/
structure Tidy (files : FileSystem) : Prop where
  root : files.root.Tidy
  working : Slashless files.working

variable {files : FileSystem}

theorem Tidy.start (h : files.Tidy) (path : String) : Slashless (files.start path) := by
  rw [FileSystem.start]
  split_ifs
  · exact slashless_nil
  · exact h.working

theorem Tidy.makeDirectory (h : files.Tidy) (path : String) :
    (files.makeDirectory path).1.Tidy := by
  rw [FileSystem.makeDirectory]
  split_ifs
  · exact h
  · exact ⟨h.root.makeAlong (slashless_segments path) (h.start path), h.working⟩

theorem Tidy.write (h : files.Tidy) (path : String) (bytes : ByteArray) :
    (files.write path bytes).Tidy := by
  rw [FileSystem.write]
  dsimp only
  split_ifs
  · exact h
  · split
    · exact h
    · rename_i here hfollow
      have hhere : Slashless here := FileNode.slashless_follow (h.start path)
        (slashless_segments path).dropLast hfollow
      split
      · exact h
      · exact ⟨h.root.put (FileNode.tidy_file bytes) (hhere.snoc (Path.not_slash_fileName path)),
          h.working⟩

/-- Files, and whole directories that are tidy, can be put anywhere. -/
theorem Tidy.place {node : FileNode} (h : files.Tidy) (hn : node.Tidy) (path : String) :
    (files.place path node).Tidy := by
  cases node with
  | file bytes => exact (h.makeDirectory _).write path bytes
  | directory entries =>
    have hmade := h.makeDirectory path
    rw [FileSystem.place]
    split
    · exact hmade
    · rename_i names hresolve
      rw [resolve] at hresolve
      split_ifs at hresolve
      have hnames : Slashless names :=
        FileNode.slashless_follow (hmade.start path) (slashless_segments path) hresolve
      exact ⟨hmade.root.put hn hnames, hmade.working⟩

theorem tidy_empty {working : List String} (h : Slashless working) : (empty working).Tidy := by
  refine ⟨?_, h⟩
  have hroot : (FileNode.directory []).Tidy := FileNode.tidy_directory List.nodup_nil (by simp)
  exact hroot.makeAlong h slashless_nil

end FileSystem

namespace Program

variable {files : FileSystem}

theorem tidy_placeLog (h : files.Tidy) (env : Environment) (fileName : String) :
    (placeLog files env fileName).1.Tidy := by
  rw [placeLog]
  split
  · exact h
  · exact h.makeDirectory _

theorem tidy_filesWith (h : files.Tidy) (log : Option String) (text : String) :
    (filesWith files log text).Tidy := by
  cases log with
  | none => exact h
  | some path => exact h.write path text.toUTF8

/-- A run leaves tidy files, as it finds them. -/
theorem tidy_runOn (h : files.Tidy) (env : Environment) (clock : Clock) (i : Invocation) :
    (runOn files env clock i).1.Tidy :=
  tidy_filesWith (tidy_placeLog h env _) _ _

end Program

end Overlay
