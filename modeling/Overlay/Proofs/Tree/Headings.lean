import Overlay.Proofs.Tree.Growth

namespace Overlay

namespace Heading

def path (h : Heading) : List String := h.scope ++ [nameKey h.name]

/-- Bodies that can be entered one after the other where there are classes at some known paths: each
one stands at such a path, or in a class that has its body in front of it. -/
def Nested (known : List (List String)) : List Heading → Prop
  | [] => True
  | h :: hs => h.scope ∈ known ∧ Nested (h.path :: known) hs

variable {known more : List (List String)} {hs hs' : List Heading}

theorem Nested.mono (h : Nested known hs) (hk : known ⊆ more) : Nested more hs := by
  induction hs generalizing known more with
  | nil => trivial
  | cons head rest ih =>
    obtain ⟨hscope, hrest⟩ := h
    exact ⟨hk hscope, ih hrest (List.cons_subset_cons _ hk)⟩

theorem Nested.append (h : Nested known hs) (h' : Nested known hs') : Nested known (hs ++ hs') := by
  induction hs generalizing known with
  | nil => exact h'
  | cons head rest ih =>
    obtain ⟨hscope, hrest⟩ := h
    exact ⟨hscope, ih hrest (h'.mono (List.subset_cons_self _ _))⟩

theorem scope_prefix_path (h : Heading) : h.scope <+: h.path := List.prefix_append _ _

/-- What leads to a body from further outside leads to its scope. -/
theorem prefix_scope_of_ne {h : Heading} {path : List String} (hp : path <+: h.path)
    (hn : h.path ≠ path) : path <+: h.scope := by
  rcases List.prefix_concat_iff.mp hp with heq | hp
  · exact absurd heq.symm hn
  · exact hp

/-- Two paths one step below the same one that begin a common path are the same. -/
theorem eq_of_prefix_snoc {scope path : List String} {key other : String}
    (h : scope ++ [key] <+: path) (h' : scope ++ [other] <+: path) : key = other := by
  have hlength : (scope ++ [key]).length = (scope ++ [other]).length := by
    rw [List.length_append, List.length_append, List.length_singleton, List.length_singleton]
  have hsame := (List.prefix_of_prefix_length_le h h' hlength.le).eq_of_length hlength
  exact List.singleton_inj.mp (List.append_cancel_left hsame)

end Heading

namespace Declaration

variable {scope : List String} {d : Declaration} {ds : List Declaration} {h : Heading}

mutual

/-- Every body of a declaration stands at its scope, or in a class with a body in front. -/
theorem nested_headings (scope : List String) :
    (d : Declaration) → Heading.Nested [scope] (d.headings scope)
  | .forward _ _ => by
    rw [headings]
    trivial
  | .body name base properties children _ => by
    rw [headings]
    refine ⟨List.mem_singleton_self _, (nested_headingsOfAll _ children).mono ?_⟩
    exact List.cons_subset_cons _ (List.nil_subset _)

theorem nested_headingsOfAll (scope : List String) :
    (ds : List Declaration) → Heading.Nested [scope] (headingsOfAll scope ds)
  | [] => by
    rw [headingsOfAll]
    trivial
  | d :: ds => by
    rw [headingsOfAll]
    exact (nested_headings scope d).append (nested_headingsOfAll scope ds)

end

theorem not_forward_of_mem (hm : h ∈ d.headings scope) : d.isForward = false := by
  cases d with
  | forward => simp [headings] at hm
  | body => rfl

mutual

/-- A declaration has bodies for its own class and for classes inside that one. -/
theorem prefix_of_mem_headings (scope : List String) :
    (d : Declaration) → ∀ h ∈ d.headings scope, scope ++ [keyOf d] <+: h.path
  | .forward _ _ => by simp [headings]
  | .body name base properties children _ => by
    intro h hm
    rw [headings, List.mem_cons] at hm
    rcases hm with rfl | hm
    · exact List.prefix_rfl
    · obtain ⟨d, _, hp⟩ := prefix_of_mem_headingsOfAll _ children h hm
      exact (List.prefix_append _ _).trans hp

/-- Each body stands at or below one of the declarations. -/
theorem prefix_of_mem_headingsOfAll (scope : List String) :
    (ds : List Declaration) → ∀ h ∈ headingsOfAll scope ds,
      ∃ d ∈ ds, scope ++ [keyOf d] <+: h.path
  | [] => by simp [headingsOfAll]
  | d :: ds => by
    intro h hm
    rw [headingsOfAll, List.mem_append] at hm
    rcases hm with hm | hm
    · exact ⟨d, List.mem_cons_self, prefix_of_mem_headings scope d h hm⟩
    · obtain ⟨e, he, hp⟩ := prefix_of_mem_headingsOfAll scope ds h hm
      exact ⟨e, List.mem_cons_of_mem d he, hp⟩

end

/-- Bodies of declarations at a scope are not of classes around that scope, nor of the one there. -/
theorem path_not_prefix_scope (hm : h ∈ headingsOfAll scope ds) : ¬h.path <+: scope := by
  intro hp
  obtain ⟨d, _, hd⟩ := prefix_of_mem_headingsOfAll scope ds h hm
  have hlength := (hd.trans hp).length_le
  rw [List.length_append, List.length_singleton] at hlength
  omega

theorem prefix_scope_of_mem (hm : h ∈ headingsOfAll scope ds) : scope <+: h.scope := by
  obtain ⟨d, _, hd⟩ := prefix_of_mem_headingsOfAll scope ds h hm
  have hp : scope <+: h.path := (List.prefix_append _ _).trans hd
  apply Heading.prefix_scope_of_ne hp
  rintro rfl
  exact path_not_prefix_scope hm List.prefix_rfl

/-- Declarations of different keys have bodies at different paths. -/
theorem nodup_paths_of {ds : List Declaration} (hk : (Roster.keys ds).Nodup)
    (hd : ∀ d ∈ ds, ((d.headings scope).map Heading.path).Nodup) :
    ((headingsOfAll scope ds).map Heading.path).Nodup := by
  induction ds with
  | nil => simp [headingsOfAll]
  | cons d ds ih =>
    obtain ⟨hfirst, hrest⟩ := List.forall_mem_cons.mp hd
    obtain ⟨hnew, hk⟩ := List.nodup_cons.mp hk
    rw [headingsOfAll, List.map_append, List.nodup_append]
    refine ⟨hfirst, ih hk hrest, ?_⟩
    -- a common path would begin with the keys of two siblings
    rintro p hp q hq rfl
    obtain ⟨h, hm, rfl⟩ := List.mem_map.mp hp
    obtain ⟨h', hm', heq⟩ := List.mem_map.mp hq
    have hbelow := prefix_of_mem_headings scope d h hm
    obtain ⟨e, he, hbelow'⟩ := prefix_of_mem_headingsOfAll scope ds h' hm'
    rw [heq] at hbelow'
    have hkey : keyOf e = keyOf d := Heading.eq_of_prefix_snoc hbelow' hbelow
    exact hnew (hkey ▸ List.mem_map_of_mem he)

/-- In a proper declaration no class has two bodies. -/
theorem Proper.nodup_paths (hd : d.Proper) (scope : List String) :
    ((d.headings scope).map Heading.path).Nodup := by
  induction hd generalizing scope with
  | forward => simp [headings]
  | @body name base properties children position _ _ _ _ _ hck ih =>
    rw [headings, List.map_cons, List.nodup_cons]
    refine ⟨?_, nodup_paths_of hck fun d hd => ih d hd _⟩
    intro hm
    obtain ⟨h, hm, heq⟩ := List.mem_map.mp hm
    apply path_not_prefix_scope hm
    rw [heq]
    exact List.prefix_rfl

theorem Proper.nodup_properties (hd : d.Proper) :
    ∀ scope, ∀ h ∈ d.headings scope, (Roster.keys h.properties).Nodup := by
  induction hd with
  | forward => simp [headings]
  | body _ _ _ hpk _ _ ih =>
    intro scope h hm
    rw [headings, List.mem_cons] at hm
    rcases hm with rfl | hm
    · exact hpk
    · obtain ⟨child, hchild, hm⟩ := mem_headingsOfAll.mp hm
      exact ih child hchild _ h hm

end Declaration

end Overlay
