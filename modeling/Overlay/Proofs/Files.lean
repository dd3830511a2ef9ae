import Overlay.Attempt
import Overlay.Proofs.Files.Tree
import Overlay.Proofs.Name

namespace Overlay

namespace FileNode

/-- Every directory of the tree at a path has a path that can be searched. -/
def Searchable (path : String) (node : FileNode) : Prop :=
  ∀ names entries, node.at? names = some (directory entries) →
    Path.isLong (Path.below path names) = false

variable {entries : List (String × FileNode)} {node inner : FileNode} {path : String}

theorem searchable_file (path : String) (bytes : ByteArray) : (file bytes).Searchable path := by
  intro names entries h
  cases names <;> cases h

/-- A directory can be searched if its own path is not too long and all that is in it can be
searched. -/
theorem searchable_directory (hn : (entries.map Prod.fst).Nodup) :
    (directory entries).Searchable path ↔ Path.isLong path = false ∧
      ∀ entry ∈ entries, entry.2.Searchable (Path.join path entry.1) := by
  constructor
  · intro h
    refine ⟨h [] entries rfl, ?_⟩
    rintro ⟨name, inner⟩ he names more hm
    exact h (name :: names) more ((at_cons_eq_some hn).mpr ⟨inner, he, hm⟩)
  · rintro ⟨hpath, hentries⟩ names more hm
    cases names with
    | nil => exact hpath
    | cons name names =>
      obtain ⟨inner, he, hi⟩ := (at_cons_eq_some hn).mp hm
      exact hentries (name, inner) he names more hi

end FileNode

namespace Disk

variable {passes : String → Bool} {path q : String} {found : List String}

mutual

/-- A tree is searched to its end exactly if all its directories can be. -/
theorem filesBelow_ok_iff (passes : String → Bool) (own : String) : (node : FileNode) →
    node.Tidy → ((∃ found, filesBelow passes own node = .ok found) ↔ node.Searchable own)
  | .file bytes, _ => by
    rw [filesBelow]
    exact iff_of_true ⟨_, rfl⟩ (FileNode.searchable_file own bytes)
  | .directory entries, ht => by
    rw [filesBelow, FileNode.searchable_directory ht.nodup]
    split_ifs with hlong
    · simp [hlong]
    · have hentries := filesAmong_ok_iff passes own entries fun entry he => ht.entry he
      simpa [hlong] using hentries

/-- A search through some entries fails exactly if one of them cannot be searched. -/
theorem filesAmong_ok_iff (passes : String → Bool) (path : String) :
    (entries : List (String × FileNode)) → (∀ entry ∈ entries, entry.2.Tidy) →
      ((∃ found, filesAmong passes path entries = .ok found) ↔
        ∀ entry ∈ entries, entry.2.Searchable (Path.join path entry.1))
  | [], _ => by
    rw [filesAmong]
    exact iff_of_true ⟨[], rfl⟩ (by simp)
  | (name, node) :: rest, ht => by
    obtain ⟨hnode, hrest⟩ := List.forall_mem_cons.mp ht
    have hfirst := filesBelow_ok_iff passes (Path.join path name) node hnode
    have hothers := filesAmong_ok_iff passes path rest hrest
    rw [filesAmong, List.forall_mem_cons, ← hfirst, ← hothers]
    simp only [Attempt.bind_eq_ok]
    constructor
    · rintro ⟨found, first, hf, others, ho, -⟩
      exact ⟨⟨first, hf⟩, others, ho⟩
    · rintro ⟨⟨first, hf⟩, others, ho⟩
      exact ⟨_, first, hf, others, ho, rfl⟩

end

/-- Names lead to a file below a path whose name passes. -/
def Holds (passes : String → Bool) (own : String) (node : FileNode) (q : String) : Prop :=
  ∃ names bytes, node.at? names = some (.file bytes) ∧ q = Path.below own names ∧
    passes (Path.fileName q) = true

theorem holds_file {bytes : ByteArray} : Holds passes path (.file bytes) q ↔
    q = path ∧ passes (Path.fileName path) = true := by
  constructor
  · rintro ⟨names, found, hat, rfl, hp⟩
    cases names with
    | nil => exact ⟨rfl, hp⟩
    | cons name names => cases hat
  · rintro ⟨rfl, hp⟩
    exact ⟨[], bytes, rfl, rfl, hp⟩

/-- A directory holds the files that one of its entries holds, below the path of that entry. -/
theorem holds_directory {entries : List (String × FileNode)}
    (hn : (entries.map Prod.fst).Nodup) : Holds passes path (.directory entries) q ↔
      ∃ entry ∈ entries, Holds passes (Path.join path entry.1) entry.2 q := by
  constructor
  · rintro ⟨names, bytes, hat, rfl, hp⟩
    cases names with
    | nil => cases hat
    | cons name names =>
      obtain ⟨inner, he, hi⟩ := (FileNode.at_cons_eq_some hn).mp hat
      exact ⟨(name, inner), he, names, bytes, hi, rfl, hp⟩
  · rintro ⟨⟨name, inner⟩, he, names, bytes, hi, rfl, hp⟩
    exact ⟨name :: names, bytes, (FileNode.at_cons_eq_some hn).mpr ⟨inner, he, hi⟩, rfl, hp⟩

mutual

/-- A search finds the files that names lead to. -/
theorem mem_filesBelow (own : String) : (node : FileNode) → node.Tidy → (found : List String) →
    filesBelow passes own node = .ok found → (q ∈ found ↔ Holds passes own node q)
  | .file bytes, _, found, h => by
    rw [filesBelow, Except.ok.injEq] at h
    rw [holds_file, ← h]
    split_ifs with hp <;> simp [hp]
  | .directory entries, ht, found, h => by
    rw [filesBelow] at h
    split_ifs at h
    rw [holds_directory ht.nodup]
    exact mem_filesAmong own entries (fun entry he => ht.entry he) found h

/-- What a search through some entries finds is what the entries hold. -/
theorem mem_filesAmong (path : String) : (entries : List (String × FileNode)) →
    (∀ entry ∈ entries, entry.2.Tidy) → (found : List String) →
      filesAmong passes path entries = .ok found →
        (q ∈ found ↔ ∃ entry ∈ entries, Holds passes (Path.join path entry.1) entry.2 q)
  | [], _, found, h => by
    rw [filesAmong, Except.ok.injEq] at h
    simp [← h]
  | (name, node) :: rest, ht, found, h => by
    obtain ⟨hnode, hrest⟩ := List.forall_mem_cons.mp ht
    rw [filesAmong] at h
    obtain ⟨first, hf, h⟩ := Attempt.bind_eq_ok.mp h
    obtain ⟨others, ho, h⟩ := Attempt.bind_eq_ok.mp h
    rw [← Except.ok.inj h, List.mem_append, List.exists_mem_cons_iff,
      mem_filesBelow _ node hnode first hf, mem_filesAmong path rest hrest others ho]

end

def Fits (extensions : List String) (name : String) : Prop :=
  ∃ ext, Path.HasExtension name ext ∧ ∃ e ∈ extensions, nameKey e = nameKey ext

theorem hasExtension_iff {extensions : List String} {name : String} :
    hasExtension extensions name = true ↔ Fits extensions name := by
  have hkey (e ext : String) : e.map Char.toLower = ext.map Char.toLower ↔
      nameKey e = nameKey ext := Iff.rfl
  rw [Fits, hasExtension]
  simp only [← Path.extension_eq_some_iff]
  cases Path.extension? name with
  | none => simp
  | some ext => simp [hkey]

/-- What paths stand for: the files among them, and below the directories among them the files
whose names fit. -/
inductive Offered (disk : Disk) (paths extensions : List String) : String → Prop
  | given {path : String} {bytes : ByteArray} (hp : path ∈ paths)
      (hf : disk path = some (.file bytes)) : Offered disk paths extensions path
  | below {path name : String} {entries : List (String × FileNode)} {names : List String}
      {bytes : ByteArray} (hp : path ∈ paths) (hd : disk path = some (.directory entries))
      (hf : (FileNode.directory entries).at? (names ++ [name]) = some (.file bytes))
      (he : Fits extensions name) :
      Offered disk paths extensions (Path.below path (names ++ [name]))

variable {disk : Disk} {paths others extensions : List String}

theorem Offered.of_subset (h : Offered disk paths extensions q) (hs : paths ⊆ others) :
    Offered disk others extensions q := by
  cases h with
  | given hp hf => exact .given (hs hp) hf
  | below hp hd hf he => exact .below (hs hp) hd hf he

/-- What paths offer is offered by a single one of them. -/
theorem offered_iff_exists : Offered disk paths extensions q ↔
    ∃ path ∈ paths, Offered disk [path] extensions q := by
  constructor
  · intro h
    cases h with
    | given hp hf => exact ⟨_, hp, .given (List.mem_singleton_self _) hf⟩
    | below hp hd hf he => exact ⟨_, hp, .below (List.mem_singleton_self _) hd hf he⟩
  · rintro ⟨path, hp, h⟩
    exact h.of_subset (List.cons_subset.mpr ⟨hp, List.nil_subset _⟩)

/-- What stands at paths are tidy trees, and none of these paths is too long. -/
structure Regular (disk : Disk) : Prop where
  tidy : ∀ path node, disk path = some node → node.Tidy
  short : ∀ path node, disk path = some node → Path.isLong path = false

theorem expand_file {bytes : ByteArray} (h : disk path = some (.file bytes)) :
    disk.expand extensions path = .ok [path] := by
  rw [expand, h]

/-- A path contributes something exactly if there is a node at it that can be searched. -/
theorem expand_ok_iff (hr : disk.Regular) : (∃ found, disk.expand extensions path = .ok found) ↔
    ∃ node, disk path = some node ∧ node.Searchable path := by
  rw [expand]
  cases hd : disk path with
  | none => simp
  | some node =>
    cases node with
    | file bytes =>
      exact iff_of_true ⟨_, rfl⟩ ⟨_, rfl, FileNode.searchable_file path bytes⟩
    | directory entries =>
      have ht := hr.tidy path _ hd
      have hwalk := filesAmong_ok_iff (hasExtension extensions) path entries
        fun entry he => ht.entry he
      have hshort := hr.short path _ hd
      simp only [Option.some.injEq, exists_eq_left', FileNode.searchable_directory ht.nodup,
        hshort, true_and, ← hwalk]
      cases filesAmong (hasExtension extensions) path entries <;> simp [Except.mapError]

/-- In a tidy directory, a search for extensions finds what the directory stands for. -/
theorem holds_directory_iff {entries : List (String × FileNode)}
    (hd : disk path = some (.directory entries)) (ht : (FileNode.directory entries).Tidy) :
    Holds (hasExtension extensions) path (.directory entries) q ↔
      Offered disk [path] extensions q := by
  constructor
  · rintro ⟨names, bytes, hat, rfl, hp⟩
    -- a file is not the directory itself, so there is a last name
    rcases List.eq_nil_or_concat names with rfl | ⟨init, name, rfl⟩
    · cases hat
    · rw [List.concat_eq_append] at hat hp ⊢
      rw [Path.below, List.foldl_append, List.foldl_cons, List.foldl_nil,
        Path.fileName_join (ht.last_name hat), hasExtension_iff] at hp
      exact .below (List.mem_singleton_self path) hd hat hp
  · intro h
    cases h with
    | given hp hf =>
      obtain rfl := List.mem_singleton.mp hp
      rw [hd] at hf
      cases hf
    | @below dir name entries' names bytes hp hd' hf he =>
      obtain rfl := List.mem_singleton.mp hp
      rw [hd] at hd'
      cases hd'
      refine ⟨names ++ [name], bytes, hf, rfl, ?_⟩
      rw [Path.below, List.foldl_append, List.foldl_cons, List.foldl_nil,
        Path.fileName_join (ht.last_name hf)]
      exact hasExtension_iff.mpr he

theorem mem_expand (hr : disk.Regular) (h : disk.expand extensions path = .ok found) :
    q ∈ found ↔ Offered disk [path] extensions q := by
  rw [expand] at h
  cases hd : disk path with
  | none => simp [hd] at h
  | some node =>
    have ht := hr.tidy path node hd
    cases node with
    | file bytes =>
      simp only [hd, Except.ok.injEq] at h
      rw [← h, List.mem_singleton]
      -- a file that is given is taken whatever its extension
      constructor
      · rintro rfl
        exact .given (List.mem_singleton_self q) hd
      · intro hq
        cases hq with
        | given hp hf => exact List.mem_singleton.mp hp
        | below hp hd' hf he =>
          obtain rfl := List.mem_singleton.mp hp
          rw [hd] at hd'
          cases hd'
    | directory entries =>
      simp only [hd] at h
      have hwalk : filesAmong (hasExtension extensions) path entries = .ok found := by
        cases hf : filesAmong (hasExtension extensions) path entries with
        | error long => simp [hf, Except.mapError] at h
        | ok files => simpa [hf, Except.mapError] using h
      rw [← holds_directory_iff hd ht, holds_directory ht.nodup]
      exact mem_filesAmong path entries (fun entry he => ht.entry he) found hwalk

/-- Paths are taken one by one, and what they contribute is arranged in the end. -/
theorem discover_eq (disk : Disk) (paths extensions : List String) :
    disk.discover paths extensions = paths.mapM (disk.expand extensions) >>= fun lists =>
      .ok (arrange lists.flatten) := rfl

/-- Discovery succeeds exactly if there is a node that can be searched at every path. -/
theorem discover_ok_iff (hr : disk.Regular) :
    (∃ found, disk.discover paths extensions = .ok found) ↔
      ∀ path ∈ paths, ∃ node, disk path = some node ∧ node.Searchable path := by
  have hall : (∃ lists, paths.mapM (disk.expand extensions) = .ok lists) ↔
      ∀ path ∈ paths, ∃ node, disk path = some node ∧ node.Searchable path := by
    rw [Attempt.mapM_ok_iff]
    exact forall₂_congr fun path _ => expand_ok_iff hr
  rw [← hall, discover_eq]
  simp only [Attempt.bind_eq_ok]
  constructor
  · rintro ⟨_, lists, hl, -⟩
    exact ⟨lists, hl⟩
  · rintro ⟨lists, hl⟩
    exact ⟨_, lists, hl, rfl⟩

/-- Discovery fails for a path with nothing at it, or for a directory that cannot be searched. -/
theorem discover_error_iff (hr : disk.Regular) :
    (∃ e, disk.discover paths extensions = .error e) ↔
      (∃ path ∈ paths, disk path = none) ∨
        ∃ path ∈ paths, ∃ node, disk path = some node ∧ ¬ node.Searchable path := by
  have hfails : (∃ e, disk.discover paths extensions = .error e) ↔
      ¬ ∃ found, disk.discover paths extensions = .ok found := by
    cases disk.discover paths extensions <;> simp
  rw [hfails, discover_ok_iff hr]
  constructor
  · simp only [not_forall, not_exists, not_and, exists_prop]
    rintro ⟨path, hp, hnode⟩
    cases hd : disk path with
    | none => exact Or.inl ⟨path, hp, hd⟩
    | some node => exact Or.inr ⟨path, hp, node, hd, hnode node hd⟩
  · rintro (⟨path, hp, hd⟩ | ⟨path, hp, node, hd, hs⟩) hall
    · obtain ⟨node, hn, -⟩ := hall path hp
      cases hd.symm.trans hn
    · obtain ⟨other, ho, hother⟩ := hall path hp
      exact hs (Option.some.inj (hd.symm.trans ho) ▸ hother)

/-- Paths in ascending order, so none of them twice, that are all what some paths stand for. -/
structure Discovered (disk : Disk) (paths extensions found : List String) : Prop where
  ascending : found.Pairwise Path.Before
  offered : ∀ q ∈ found, Offered disk paths extensions q
  complete : ∀ q, Offered disk paths extensions q →
    ∃ kept ∈ found, Path.components kept = Path.components q

/-- A discovery that succeeds finds what the paths stand for, in order and without repetition. -/
theorem discovered_of_discover (hr : disk.Regular)
    (h : disk.discover paths extensions = .ok found) : Discovered disk paths extensions found := by
  rw [discover_eq] at h
  obtain ⟨lists, hl, h⟩ := Attempt.bind_eq_ok.mp h
  have hmem (q : String) : q ∈ lists.flatten ↔ Offered disk paths extensions q := by
    rw [List.mem_flatten, offered_iff_exists]
    constructor
    · rintro ⟨list, hlist, hq⟩
      obtain ⟨path, hp, he⟩ := (Attempt.mem_of_mapM hl).mp hlist
      exact ⟨path, hp, (mem_expand hr he).mp hq⟩
    · rintro ⟨path, hp, hq⟩
      obtain ⟨list, he⟩ := Attempt.mapM_ok_iff.mp ⟨lists, hl⟩ path hp
      exact ⟨list, (Attempt.mem_of_mapM hl).mpr ⟨path, hp, he⟩, (mem_expand hr he).mpr hq⟩
  rw [← Except.ok.inj h]
  refine ⟨arrange_ascending _, ?_, ?_⟩
  · exact fun q hq => (hmem q).mp (mem_of_mem_arrange hq)
  · exact fun q hq => exists_arranged ((hmem q).mpr hq)

/-- Paths that stand for the same are discovered as the same sequences of components. -/
theorem Discovered.components_eq {again : List String} (h : Discovered disk paths extensions found)
    (ha : Discovered disk others extensions again) (hsame : ∀ p, p ∈ others ↔ p ∈ paths) :
    again.map Path.components = found.map Path.components := by
  have hsub {as bs : List String} {left right : List String}
      (hl : Discovered disk as extensions left) (hrt : Discovered disk bs extensions right)
      (hab : as ⊆ bs) : ∀ cs ∈ left.map Path.components, cs ∈ right.map Path.components := by
    intro cs hcs
    obtain ⟨q, hq, rfl⟩ := List.mem_map.mp hcs
    obtain ⟨kept, hk, he⟩ := hrt.complete q ((hl.offered q hq).of_subset hab)
    exact List.mem_map.mpr ⟨kept, hk, he⟩
  refine Path.components_eq_of_ascending ha.ascending h.ascending fun cs => ⟨?_, ?_⟩
  · exact hsub ha h (fun p hp => (hsame p).mp hp) cs
  · exact hsub h ha (fun p hp => (hsame p).mpr hp) cs

end Disk

namespace FileSystem
open Disk (Discovered)

/-- What is looked up in a tidy tree is as regular as discovery needs it. -/
theorem regular_look {files : FileSystem} (ht : files.root.Tidy) : files.look.Regular := by
  constructor
  · intro path node h
    obtain ⟨names, -, hat⟩ := Option.bind_eq_some_iff.mp h
    exact ht.at hat
  · intro path node h
    obtain ⟨names, hnames, -⟩ := Option.bind_eq_some_iff.mp h
    rw [resolve] at hnames
    split_ifs at hnames with hlong
    simp only [Bool.or_eq_true, not_or, Bool.not_eq_true] at hlong
    exact hlong.2

/-- Paths fail to be discovered exactly if one of them leads nowhere or to a tree that cannot be
searched to its end. Otherwise they give what they stand for, in ascending order, and in the same
order however they are arranged or repeated. -/
theorem discover_exactly (files : FileSystem) (ht : files.root.Tidy)
    (paths extensions : List String) :
    ((∃ e, files.look.discover paths extensions = .error e) ↔
        (∃ path ∈ paths, files.look path = none) ∨
          ∃ path ∈ paths, ∃ node, files.look path = some node ∧ ¬ node.Searchable path) ∧
      ∀ found, files.look.discover paths extensions = .ok found →
        Discovered files.look paths extensions found ∧
          ∀ others, (∀ path, path ∈ others ↔ path ∈ paths) →
            ∃ again, files.look.discover others extensions = .ok again ∧
              again.map Path.components = found.map Path.components := by
  have hr := regular_look ht
  refine ⟨Disk.discover_error_iff hr, ?_⟩
  intro found h
  have hd := Disk.discovered_of_discover hr h
  refine ⟨hd, ?_⟩
  intro others hsame
  have hall := (Disk.discover_ok_iff hr).mp ⟨found, h⟩
  obtain ⟨again, ha⟩ := (Disk.discover_ok_iff hr).mpr fun path hp =>
    hall path ((hsame path).mp hp)
  exact ⟨again, ha, hd.components_eq (Disk.discovered_of_discover hr ha) hsame⟩

def nested : FileSystem :=
  ⟨.directory [("d", .directory [("A.CPP", .file .empty),
    ("e", .directory [(".cpp", .file .empty), ("b.x.cpp", .file .empty)]),
    ("readme.md", .file .empty)])], []⟩

theorem tidy_nested : nested.root.Tidy := by
  have he : (FileNode.directory [(".cpp", .file .empty), ("b.x.cpp", .file .empty)]).Tidy :=
    FileNode.tidy_directory (by decide) (by simp [FileNode.tidy_file])
  have hd : (FileNode.directory [("A.CPP", .file .empty),
      ("e", .directory [(".cpp", .file .empty), ("b.x.cpp", .file .empty)]),
      ("readme.md", .file .empty)]).Tidy :=
    FileNode.tidy_directory (by decide) (by simp [FileNode.tidy_file, he])
  exact FileNode.tidy_directory (by decide) (by simp [hd])

theorem expand_nested : nested.look.expand ["cpp"] "d" = .ok ["d/A.CPP", "d/e/b.x.cpp"] := by
  have hnames : nested.resolve "d" = some ["d"] := by decide +kernel
  obtain ⟨hupper, hinner, hhidden, hpoints, hreadme⟩ :
      Path.join "d" "A.CPP" = "d/A.CPP" ∧ Path.join "d" "e" = "d/e" ∧
        Path.join "d/e" ".cpp" = "d/e/.cpp" ∧ Path.join "d/e" "b.x.cpp" = "d/e/b.x.cpp" ∧
        Path.join "d" "readme.md" = "d/readme.md" := by decide +kernel
  have hlong : Path.isLong "d/e" = false := by decide +kernel
  have hfits : Disk.hasExtension ["cpp"] (Path.fileName "d/A.CPP") = true := by
    have hname : Path.fileName "d/A.CPP" = "A.CPP" := by decide +kernel
    have hlower : nameKey "cpp" = "cpp" := nameKey_eq (by decide)
    have hupper : nameKey "CPP" = "cpp" := nameKey_eq (by decide)
    rw [hname, Disk.hasExtension_iff]
    exact ⟨"CPP", ⟨"A", by decide, by decide, by decide⟩, "cpp", List.mem_singleton_self _,
      hlower.trans hupper.symm⟩
  have hlast : Disk.hasExtension ["cpp"] (Path.fileName "d/e/b.x.cpp") = true := by decide +kernel
  have hhides : Disk.hasExtension ["cpp"] (Path.fileName "d/e/.cpp") = false := by decide +kernel
  have hdiffers : Disk.hasExtension ["cpp"] (Path.fileName "d/readme.md") = false := by
    decide +kernel
  rw [Disk.expand, look, hnames]
  simp only [Option.bind_some, nested, FileNode.at?, List.lookup_cons_self, Disk.filesAmong,
    Disk.filesBelow, hupper, hinner, hhidden, hpoints, hreadme, hlong, hfits, hlast, hhides,
    hdiffers]
  rfl

theorem discover_nested :
    nested.look.discover ["d", "d//e/b.x.cpp", "d/readme.md"] ["cpp"] =
      .ok ["d/A.CPP", "d/e/b.x.cpp", "d/readme.md"] := by
  have hinner : nested.look "d//e/b.x.cpp" = some (.file .empty) := by
    have hnames : nested.resolve "d//e/b.x.cpp" = some ["d", "e", "b.x.cpp"] := by decide +kernel
    rw [look, hnames]
    rfl
  have hreadme : nested.look "d/readme.md" = some (.file .empty) := by
    have hnames : nested.resolve "d/readme.md" = some ["d", "readme.md"] := by decide +kernel
    rw [look, hnames]
    rfl
  have hlists : ["d", "d//e/b.x.cpp", "d/readme.md"].mapM (nested.look.expand ["cpp"]) =
      .ok [["d/A.CPP", "d/e/b.x.cpp"], ["d//e/b.x.cpp"], ["d/readme.md"]] := by
    simp only [List.mapM_cons, List.mapM_nil, expand_nested, Disk.expand_file hinner,
      Disk.expand_file hreadme]
    rfl
  have hsorted : ["d/A.CPP", "d/e/b.x.cpp", "d//e/b.x.cpp", "d/readme.md"].Pairwise
      fun a b => (Path.compare a b).isLE = true := by decide +kernel
  have hkept : Disk.dropRepeats ["d/A.CPP", "d/e/b.x.cpp", "d//e/b.x.cpp", "d/readme.md"] =
      ["d/A.CPP", "d/e/b.x.cpp", "d/readme.md"] := by decide +kernel
  rw [Disk.discover_eq, hlists]
  exact congrArg Except.ok ((congrArg Disk.dropRepeats (List.mergeSort_of_pairwise hsorted)).trans
    hkept)

theorem discover_exactly_nested :
    nested.root.Tidy ∧
      (∃ e, nested.look.discover ["d", "gone"] ["cpp"] = .error e) ∧
      Discovered nested.look ["d", "d//e/b.x.cpp", "d/readme.md"] ["cpp"]
        ["d/A.CPP", "d/e/b.x.cpp", "d/readme.md"] ∧
      ∃ again, nested.look.discover ["d/readme.md", "d", "d//e/b.x.cpp", "d"] ["cpp"] = .ok again ∧
        again.map Path.components =
          ["d/A.CPP", "d/e/b.x.cpp", "d/readme.md"].map Path.components := by
  have hgone : nested.look "gone" = none := Option.isNone_iff_eq_none.mp (by decide +kernel)
  obtain ⟨hfails, -⟩ := discover_exactly nested tidy_nested ["d", "gone"] ["cpp"]
  obtain ⟨-, hfinds⟩ := discover_exactly nested tidy_nested
    ["d", "d//e/b.x.cpp", "d/readme.md"] ["cpp"]
  obtain ⟨hfound, hagain⟩ := hfinds _ discover_nested
  refine ⟨tidy_nested, hfails.mpr (Or.inl ⟨"gone", by simp, hgone⟩), hfound, hagain _ ?_⟩
  intro path
  simp only [List.mem_cons, List.not_mem_nil, or_false]
  tauto

end FileSystem

end Overlay
