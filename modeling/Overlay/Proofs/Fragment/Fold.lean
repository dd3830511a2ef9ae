import Overlay.Fragment.Fold
import Overlay.Proofs.Tree.Values

namespace Overlay

namespace Roster

variable {α : Type} [Named α] {members : List α} {x : α} {join : α → α}

def names (members : List α) : List String := members.map Named.name

theorem keys_eq_names (members : List α) : keys members = (names members).map nameKey := by
  rw [keys, names, List.map_map]
  rfl

def enlist (known : List String) (name : String) : List String :=
  if nameKey name ∈ known.map nameKey then known else known ++ [name]

/-- A newcomer brings its name, unless there is a member of its key. -/
theorem names_absorb (hj : ∀ a, Named.name (join a) = Named.name a) :
    names (absorb join x members) = enlist (names members) (Named.name x) := by
  induction members with
  | nil => rfl
  | cons a as ih =>
    rw [names, names] at ih
    by_cases ha : keyOf a = keyOf x
    · have hin : nameKey (Named.name x) ∈ (names (a :: as)).map nameKey := by
        rw [← keys_eq_names, keys, List.map_cons, ha]
        exact List.mem_cons_self
      rw [enlist, if_pos hin, absorb, if_pos ha, names, List.map_cons, hj]
      rfl
    · have hx : ¬nameKey (Named.name x) = nameKey (Named.name a) := fun h => ha h.symm
      rw [absorb, if_neg ha, names, List.map_cons, ih]
      simp only [enlist, names, List.map_cons, List.mem_cons, hx, false_or]
      split_ifs <;> rfl

/-- However newcomers are joined to members, the names come up in the order of their first
mention. -/
theorem names_foldl_absorb {β : Type} [Named β] (new : β → α) (join : β → α → α)
    (hn : ∀ b, Named.name (new b) = Named.name b) (hj : ∀ b a, Named.name (join b a) = Named.name a)
    (newcomers : List β) (members : List α) :
    names (newcomers.foldl (fun all b => absorb (join b) (new b) all) members) =
      (names newcomers).foldl enlist (names members) := by
  induction newcomers generalizing members with
  | nil => rfl
  | cons b bs ih =>
    rw [List.foldl_cons, ih, names_absorb (hj b), hn b]
    rfl

variable {key : String} {known more : List String}

theorem key_mem_foldl_enlist :
    key ∈ (more.foldl enlist known).map nameKey ↔
      key ∈ known.map nameKey ∨ key ∈ more.map nameKey := by
  induction more generalizing known with
  | nil => simp
  | cons name rest ih =>
    rw [List.foldl_cons, ih, enlist, List.map_cons, List.mem_cons]
    split_ifs with h
    · constructor
      · rintro (hk | hk)
        · exact .inl hk
        · exact .inr (.inr hk)
      · rintro (hk | rfl | hk)
        · exact .inl hk
        · exact .inl h
        · exact .inr hk
    · rw [List.map_append, List.map_singleton, List.mem_append, List.mem_singleton, or_assoc]

theorem nodup_foldl_enlist (h : (known.map nameKey).Nodup) :
    ((more.foldl enlist known).map nameKey).Nodup := by
  induction more generalizing known with
  | nil => exact h
  | cons name rest ih =>
    apply ih
    rw [enlist]
    split_ifs with hk
    · exact h
    · rw [List.map_append, List.map_singleton]
      apply List.nodup_append.mpr
      refine ⟨h, List.nodup_singleton _, ?_⟩
      intro k hmem k' hk' heq
      rw [List.mem_singleton.mp hk'] at heq
      exact hk (heq ▸ hmem)

/-- Names that stand twice add nothing, so they can be dropped beforehand. -/
theorem foldl_enlist_foldl (known more : List String) :
    (more.foldl enlist []).foldl enlist known = more.foldl enlist known := by
  induction more using List.reverseRecOn with
  | nil => rfl
  | append_singleton rest name ih =>
    rw [List.foldl_append, List.foldl_append, List.foldl_cons, List.foldl_nil, List.foldl_cons,
      List.foldl_nil, ← ih]
    by_cases h : nameKey name ∈ (rest.foldl enlist []).map nameKey
    · have hall : nameKey name ∈ ((rest.foldl enlist []).foldl enlist known).map nameKey :=
        key_mem_foldl_enlist.mpr (.inr h)
      rw [enlist, if_pos h, enlist, if_pos hall]
    · rw [enlist, if_neg h, List.foldl_append, List.foldl_cons, List.foldl_nil]

/-- Members are given by their names and what is found under each key. -/
theorem eq_of_names {ms ms' : List Member} (hn : names ms = names ms') (hd : (keys ms).Nodup)
    (hv : ∀ key, (find? key ms).map Member.value = (find? key ms').map Member.value) :
    ms = ms' := by
  induction ms generalizing ms' with
  | nil => exact (List.map_eq_nil_iff.mp hn.symm).symm
  | cons m rest ih =>
    obtain ⟨m', rest', rfl, hname, hrest⟩ := List.map_eq_cons_iff.mp hn.symm
    have hkey : keyOf m' = keyOf m := congrArg nameKey hname
    obtain ⟨hm, hnd⟩ := List.nodup_cons.mp hd
    have hkeys : keys rest' = keys rest := by
      rw [keys_eq_names, keys_eq_names]
      exact congrArg _ hrest
    have hvalue := hv (keyOf m)
    rw [find_cons, if_pos rfl, find_cons, if_pos hkey] at hvalue
    have htail : rest = rest' := by
      apply ih hrest.symm hnd
      intro key
      by_cases hk : keyOf m = key
      · -- the key of the first member is not that of another one
        rw [find_eq_none_iff.mpr (hk ▸ hm), find_eq_none_iff.mpr (hk ▸ hkeys ▸ hm)]
      · have hk' : keyOf m' ≠ key := fun h => hk (hkey.symm.trans h)
        have hboth := hv key
        rwa [find_cons, if_neg hk, find_cons, if_neg hk'] at hboth
    have hfirst : m = m' := by
      cases m
      cases m'
      rw [Member.mk.injEq]
      exact ⟨hname.symm, Option.some.inj hvalue⟩
    rw [hfirst, htail]

end Roster

namespace Property

/-- The one declaration to which the declarations of one property are folded. -/
def folded (ps : List Property) : Option Property :=
  ps.foldl (fun entry p => some (entry.elim p p.join)) none

/-- The last declaration is joined to what those in front of it are folded to. -/
theorem folded_snoc (ps : List Property) (p : Property) :
    folded (ps ++ [p]) = some ((folded ps).elim p p.join) := by
  rw [folded, List.foldl_append]
  rfl

theorem folded_eq_none {ps : List Property} : folded ps = none ↔ ps = [] := by
  induction ps using List.reverseRecOn with
  | nil => simp [folded]
  | append_singleton ps p _ => simp [folded_snoc]

/-- Elements to be added to an array. -/
structure Extends (p : Property) : Prop where
  append : p.append = true
  array : p.value.isArray = true

/-- The last declarations add elements, the first of them to a scalar. -/
def ExtendsScalar (ps : List Property) : Prop :=
  ∃ before scalar added, ps = before ++ scalar :: added ∧ scalar.value.isArray = false ∧
    added ≠ [] ∧ ∀ p ∈ added, p.Extends

variable {p e : Property} {ps : List Property}

/-- The last declaration has to extend, either after ones that extend a scalar already or right
behind a scalar. -/
theorem extendsScalar_snoc :
    ExtendsScalar (ps ++ [p]) ↔
      p.Extends ∧ (ExtendsScalar ps ∨ ∃ q ∈ ps.getLast?, q.value.isArray = false) := by
  constructor
  · rintro ⟨before, scalar, added, heq, hs, hne, hall⟩
    -- the last declaration is the last of those that add
    obtain ⟨front, last, rfl⟩ := (List.eq_nil_or_concat' added).resolve_left hne
    rw [← List.cons_append, ← List.append_assoc] at heq
    obtain ⟨rfl, hlast⟩ := List.append_inj' heq rfl
    obtain rfl := List.singleton_inj.mp hlast
    refine ⟨hall p (by simp), ?_⟩
    by_cases hf : front = []
    · right
      exact ⟨scalar, by simp [hf], hs⟩
    · left
      exact ⟨before, scalar, front, rfl, hs, hf, fun q hq => hall q (by simp [hq])⟩
  · rintro ⟨hp, ⟨before, scalar, added, rfl, hs, _, hall⟩ | ⟨scalar, hlast, hs⟩⟩
    · refine ⟨before, scalar, added ++ [p], by simp, hs, by simp, ?_⟩
      intro q hq
      rcases List.mem_append.mp hq with hq | hq
      · exact hall q hq
      · exact List.mem_singleton.mp hq ▸ hp
    · obtain ⟨before, rfl⟩ := List.getLast?_eq_some_iff.mp hlast
      refine ⟨before, scalar, [p], by simp, hs, by simp, ?_⟩
      intro q hq
      exact List.mem_singleton.mp hq ▸ hp

theorem not_extendsScalar_nil : ¬ExtendsScalar [] := by
  rintro ⟨before, scalar, added, heq, _⟩
  simp at heq

theorem Extends.value_eq (h : p.Extends) : ∃ more, p.value = .array more := by
  have hv := h.array
  cases hp : p.value with
  | scalar s => simp [hp, Value.isArray] at hv
  | array more => exact ⟨more, rfl⟩

/-- A declaration that adds no elements counts alone, whatever stands before it. -/
theorem after_of_not_extends (h : ¬p.Extends) (current : Option Value) :
    p.after current = p.value := by
  unfold after
  split
  · rename_i ha hv
    exact absurd ⟨ha, by rw [hv]; rfl⟩ h
  · rfl

/-- Unless elements are added to an array, the later declaration takes the place of the earlier. -/
theorem join_eq_later (h : ¬(p.Extends ∧ e.value.isArray = true)) :
    p.join e = { e with value := p.value, append := p.append } := by
  unfold join
  split
  · rename_i ha he hv
    exact absurd ⟨⟨ha, by rw [hv]; rfl⟩, by rw [he]; rfl⟩ h
  · rfl

/-- Adding elements twice is adding all of them at once. -/
theorem after_after {items more : List Scalar} {current : Option Value} (hp : p.append = true)
    (hm : p.value = .array more) (he : e.value = .array items) :
    p.after (some (e.after current)) =
      after { e with value := .array (items ++ more) } current := by
  cases ha : e.append with
  | false => simp [after, hp, hm, he, ha]
  | true =>
    rcases current with _ | (s | old)
    · simp [after, hp, hm, he, ha]
    · simp [after, hp, hm, he, ha]
    · simp [after, hp, hm, he, ha, List.append_assoc]

/-- What a folded declaration has to do with those that it stands for. -/
structure Stands (ps : List Property) (e : Property) : Prop where
  last : ∃ q ∈ ps.getLast?, q.value.isArray = e.value.isArray
  faithful : ¬ExtendsScalar ps → ∀ current, settled current ps = some (e.after current)
  added : ExtendsScalar ps → e.Extends ∧ ∀ current, settled current ps = some e.value

theorem stands_first (p : Property) : Stands [p] p := by
  refine ⟨⟨p, rfl, rfl⟩, fun _ _ => rfl, ?_⟩
  intro h
  obtain ⟨_, h | ⟨q, hq, _⟩⟩ := extendsScalar_snoc.mp (show ExtendsScalar ([] ++ [p]) from h)
  · exact absurd h not_extendsScalar_nil
  · exact absurd hq (by simp)

/-- The last declaration has the last word on the value. -/
theorem settled_snoc (current : Option Value) (ps : List Property) (p : Property) :
    settled current (ps ++ [p]) = some (p.after (settled current ps)) := by
  rw [settled_append]
  rfl

/-- A declaration that does not extend replaces whatever is in front of it, in the folded
declaration as in a class. -/
theorem stands_replaced (hp : ¬p.Extends) (ps : List Property) (e : Property) :
    Stands (ps ++ [p]) (p.join e) := by
  rw [join_eq_later fun h => hp h.1]
  have hj : ¬Extends { e with value := p.value, append := p.append } := fun h => hp ⟨h.1, h.2⟩
  refine ⟨⟨p, by simp, rfl⟩, ?_, ?_⟩
  · intro _ current
    rw [settled_snoc, after_of_not_extends hp, after_of_not_extends hj]
  · intro h
    exact absurd (extendsScalar_snoc.mp h).1 hp

/-- Elements behind a scalar: from here on the folded declaration says more than the declarations
do. -/
theorem stands_over_scalar {s : Scalar} (hp : p.Extends) (h : Stands ps e)
    (he : e.value = .scalar s) : Stands (ps ++ [p]) (p.join e) := by
  have hj : p.join e = { e with value := p.value, append := p.append } := by
    apply join_eq_later
    rw [he]
    exact fun h => Bool.false_ne_true h.2
  have hne : ¬e.Extends := by
    intro hx
    simpa [he, Value.isArray] using hx.array
  have hfresh : ¬ExtendsScalar ps := fun hx => hne (h.added hx).1
  obtain ⟨q, hq, hqe⟩ := h.last
  have hscalar : q.value.isArray = false := by rw [hqe, he, Value.isArray]
  rw [hj]
  refine ⟨⟨p, by simp, rfl⟩, ?_, ?_⟩
  · intro hn
    exact absurd (extendsScalar_snoc.mpr ⟨hp, .inr ⟨q, hq, hscalar⟩⟩) hn
  · intro _
    refine ⟨⟨hp.append, hp.array⟩, ?_⟩
    intro current
    -- the scalar has replaced what was there, so there is nothing to add to
    have hsettled : settled current ps = some (.scalar s) := by
      rw [h.faithful hfresh current, after_of_not_extends hne, he]
    rw [settled_snoc, hsettled, after]
    simp

/-- Elements behind an array: folding them leaves no trace. -/
theorem stands_over_array {items : List Scalar} (hp : p.Extends) (h : Stands ps e)
    (he : e.value = .array items) : Stands (ps ++ [p]) (p.join e) := by
  obtain ⟨more, hmore⟩ := hp.value_eq
  have hj : p.join e = { e with value := .array (items ++ more) } := by
    rw [join, hp.append, he, hmore]
  obtain ⟨q, hq, hqe⟩ := h.last
  have hsame : ExtendsScalar (ps ++ [p]) → ExtendsScalar ps := by
    intro hx
    obtain ⟨_, hx | ⟨q', hq', hs⟩⟩ := extendsScalar_snoc.mp hx
    · exact hx
    · rw [Option.mem_unique hq' hq, hqe, he, Value.isArray] at hs
      exact absurd hs (by simp)
  rw [hj]
  refine ⟨⟨p, by simp, hp.array⟩, ?_, ?_⟩
  · intro hn current
    have hfresh : ¬ExtendsScalar ps := fun hx => hn (extendsScalar_snoc.mpr ⟨hp, .inl hx⟩)
    rw [settled_snoc, h.faithful hfresh current, after_after hp.append hmore he]
  · intro hx
    obtain ⟨hex, hval⟩ := h.added (hsame hx)
    refine ⟨⟨hex.append, rfl⟩, ?_⟩
    intro current
    rw [settled_snoc, hval current, he]
    simp only [after, hp.append, hmore]

/-- A folded declaration stands for the declarations that it is made of. The induction goes from the
last declaration to the first. -/
theorem stands_folded (h : folded ps = some e) : Stands ps e := by
  -- one more declaration at the end adds elements to an array or to a scalar, or replaces
  induction ps using List.reverseRecOn generalizing e with
  | nil => simp [folded] at h
  | append_singleton ps p ih =>
    rw [folded_snoc, Option.some.injEq] at h
    cases hf : folded ps with
    | none =>
      rw [hf] at h
      rw [folded_eq_none.mp hf, ← h]
      exact stands_first p
    | some e' =>
      rw [hf] at h
      have hs := ih hf
      rw [← h]
      by_cases hp : p.Extends
      · cases he : e'.value with
        | scalar s => exact stands_over_scalar hp hs he
        | array items => exact stands_over_array hp hs he
      · exact stands_replaced hp ps e'

theorem name_join (later earlier : Property) : (later.join earlier).name = earlier.name := by
  unfold join
  split <;> rfl

/-- In a folded body, a property is what its own declarations are folded to. -/
theorem find_foldl_fold (ps : List Property) (key : String) :
    Roster.find? key (ps.foldl fold []) = folded (Roster.bearing key ps) :=
  Roster.find_foldl_absorb id join (fun _ => rfl)
    (fun later earlier => congrArg nameKey (name_join later earlier)) key ps []

/-- A folded body has each name once, in the order of the first declarations. -/
theorem names_foldl_fold (ps : List Property) :
    Roster.names (ps.foldl fold []) = (Roster.names ps).foldl Roster.enlist [] :=
  Roster.names_foldl_absorb id join (fun _ => rfl) name_join ps []

theorem keys_foldl_fold (ps : List Property) : (Roster.keys (ps.foldl fold [])).Nodup := by
  rw [Roster.keys_eq_names, names_foldl_fold]
  exact Roster.nodup_foldl_enlist List.nodup_nil

end Property

namespace Class

variable {c : Class}

theorem names_foldl_assign (c : Class) (ps : List Property) :
    Roster.names (ps.foldl assign c).properties =
      (Roster.names ps).foldl Roster.enlist (Roster.names c.properties) := by
  rw [foldl_assign]
  exact Roster.names_foldl_absorb (fun p : Property => (⟨p.name, p.value⟩ : Member))
    (fun p m => m.update p) (fun _ => rfl) (fun _ _ => rfl) ps c.properties

/-- Folding a body first makes no difference to the names in the class and to their order. -/
theorem names_folded (c : Class) (ps : List Property) :
    Roster.names ((ps.foldl Property.fold []).foldl assign c).properties =
      Roster.names (ps.foldl assign c).properties := by
  rw [names_foldl_assign, names_foldl_assign, Property.names_foldl_fold, Roster.foldl_enlist_foldl]

theorem value_folded (c : Class) (ps : List Property) (key : String) :
    ((ps.foldl Property.fold []).foldl assign c).value? key =
      Property.settled (c.value? key) (Property.folded (Roster.bearing key ps)).toList := by
  rw [value_foldl_assign, Roster.bearing_eq_find key (Property.keys_foldl_fold ps),
    Property.find_foldl_fold]

/-- Folding a body first makes a difference to a property exactly if its last declarations extend a
scalar while the class has an array. -/
theorem value_folded_iff (c : Class) (ps : List Property) (key : String) :
    ((ps.foldl Property.fold []).foldl assign c).value? key = (ps.foldl assign c).value? key ↔
      ∀ items, c.value? key = some (.array items) →
        Property.ExtendsScalar (Roster.bearing key ps) → items = [] := by
  rw [value_folded, value_foldl_assign]
  cases hf : Property.folded (Roster.bearing key ps) with
  | none =>
    rw [Property.folded_eq_none.mp hf]
    exact iff_of_true rfl fun _ _ h => absurd h Property.not_extendsScalar_nil
  | some e =>
    have hs := Property.stands_folded hf
    have hone : Property.settled (c.value? key) (some e).toList = some (e.after (c.value? key)) :=
      rfl
    rw [hone]
    by_cases hx : Property.ExtendsScalar (Roster.bearing key ps)
    · obtain ⟨hex, hval⟩ := hs.added hx
      obtain ⟨more, hmore⟩ := hex.value_eq
      rw [hval, Option.some.injEq, hmore]
      -- only an array that was there makes a difference
      rcases c.value? key with _ | (s | old)
      · simp [Property.after, hmore]
      · simp [Property.after, hmore]
      · simp [Property.after, hex.append, hmore, hx]
    · exact iff_of_true (hs.faithful hx _).symm fun _ _ h => absurd h hx

/-- Folding a body before it is taken over makes no difference to the properties and their order,
and none to the values either, unless elements are added to a scalar of the body in front of which
an array with elements has been there. -/
theorem assign_folded_iff (ps : List Property) (hk : (Roster.keys c.properties).Nodup) :
    Roster.names ((ps.foldl Property.fold []).foldl assign c).properties =
        Roster.names (ps.foldl assign c).properties ∧
      ((ps.foldl Property.fold []).foldl assign c = ps.foldl assign c ↔
        ∀ key items, c.value? key = some (.array items) →
          Property.ExtendsScalar (Roster.bearing key ps) → items = []) := by
  refine ⟨names_folded c ps, ?_, ?_⟩
  · intro heq key
    rw [← value_folded_iff, heq]
  · intro h
    have hnodup (qs : List Property) : (Roster.keys (qs.foldl assign c).properties).Nodup := by
      rw [Roster.keys_eq_names, names_foldl_assign]
      exact Roster.nodup_foldl_enlist (Roster.keys_eq_names c.properties ▸ hk)
    have hsame : ((ps.foldl Property.fold []).foldl assign c).properties =
        (ps.foldl assign c).properties := by
      apply Roster.eq_of_names (names_folded c ps) (hnodup _)
      intro key
      exact (value_folded_iff c ps key).mpr (h key)
    rw [foldl_assign, foldl_assign] at hsame ⊢
    rw [Class.mk.injEq]
    exact ⟨rfl, rfl, hsame, rfl⟩

def stocked : Class := ⟨"A", none, [⟨"x", .array [.number "0"]⟩], []⟩

-- The body `x[] += {1}; x[] = {2}; x[] += {3};`.
def threeSteps : List Property :=
  [⟨"x", .array [.number "1"], true, .start⟩, ⟨"x", .array [.number "2"], false, .start⟩,
    ⟨"x", .array [.number "3"], true, .start⟩]

theorem assign_folded_threeSteps :
    (Roster.keys stocked.properties).Nodup ∧
      (threeSteps.foldl Property.fold []).foldl assign stocked =
        threeSteps.foldl assign stocked := by
  have hk : (Roster.keys stocked.properties).Nodup := List.nodup_singleton _
  refine ⟨hk, (assign_folded_iff threeSteps hk).2.mpr ?_⟩
  -- there is no scalar in the body
  rintro key items _ ⟨before, scalar, added, heq, hs, _⟩
  have hmem : scalar ∈ threeSteps := by
    apply List.mem_of_mem_filter (p := fun p => keyOf p = key)
    rw [← Roster.bearing, heq]
    simp
  have harrays : ∀ p ∈ threeSteps, p.value.isArray = true := by decide
  rw [harrays scalar hmem] at hs
  exact absurd hs (by decide)

-- The body `x = 1; x[] += {2};`.
def addToScalar : List Property :=
  [⟨"x", .scalar (.number "1"), false, .start⟩, ⟨"x", .array [.number "2"], true, .start⟩]

/-- The scalar replaces the array and the elements replace the scalar, but folded beforehand the
elements go behind those of the array. -/
theorem assign_folded_differs :
    (Roster.keys stocked.properties).Nodup ∧
      (addToScalar.foldl assign stocked).properties = [⟨"x", .array [.number "2"]⟩] ∧
      ((addToScalar.foldl Property.fold []).foldl assign stocked).properties =
        [⟨"x", .array [.number "0", .number "2"]⟩] := by
  decide +kernel

end Class

end Overlay
