import Overlay.Proofs.Tree.Tokens

namespace Overlay
open Text (Position)
open Fragment (classKeyword tokensOf Draft OpenClass)
open Attempt (bind_eq_ok)

def Property.bare (p : Property) : Property := { p with position := .start }

namespace Declaration

mutual

def bare : Declaration → Declaration
  | .forward name _ => .forward name .start
  | .body name base properties children _ =>
    .body name base (properties.map Property.bare) (bareAll children) .start

def bareAll : List Declaration → List Declaration
  | [] => []
  | d :: ds => bare d :: bareAll ds

end

theorem bareAll_eq (ds : List Declaration) : bareAll ds = ds.map bare := by
  induction ds with
  | nil => rfl
  | cons d ds ih => rw [bareAll, List.map_cons, ih]

theorem keyOf_bare (d : Declaration) : keyOf d.bare = keyOf d := by
  cases d <;> (rw [bare]; rfl)

end Declaration

def Member.declaration (m : Member) : Property := ⟨m.name, m.value, false, .start⟩

namespace Class

mutual

def declaration : Class → Declaration
  | ⟨name, _, properties, children⟩ =>
    .body name none (properties.map Member.declaration) (declarations children) .start

def declarations : List Class → List Declaration
  | [] => []
  | c :: cs => declaration c :: declarations cs

end

theorem declarations_eq (cs : List Class) : declarations cs = cs.map declaration := by
  induction cs with
  | nil => rfl
  | cons c cs ih => rw [declarations, List.map_cons, ih]

theorem keyOf_declaration (c : Class) : keyOf c.declaration = keyOf c := by
  cases c
  rw [declaration]
  rfl

end Class

/-- Newcomers under names that all differ line up behind the members. -/
theorem Roster.foldl_absorb {α : Type} [Named α] (join : α → α → α) (members more : List α)
    (h : (keys (members ++ more)).Nodup) :
    more.foldl (fun known x => absorb (join x) x known) members = members ++ more := by
  induction more generalizing members with
  | nil => simp
  | cons x xs ih =>
    have hnew : keyOf x ∉ keys members := by
      rw [keys, List.map_append, List.map_cons] at h
      intro hm
      exact List.disjoint_of_nodup_append h hm List.mem_cons_self
    rw [List.foldl_cons, absorb_of_new hnew, ih, List.append_assoc, List.singleton_append]
    rwa [List.append_assoc, List.singleton_append]

namespace Fragment

theorem scalar_of_token (s : Scalar) : scalar? s.token = some s := by
  cases s with
  | number literal => rfl
  | text value => rfl
  | flag value => cases value <;> rfl

theorem items_of_itemTokens (items : List Scalar) : Items (itemTokens items) items := by
  induction items with
  | nil => exact .close
  | cons s items ih =>
    cases items with
    | nil => exact .last (scalar_of_token s)
    | cons t items => exact .more (scalar_of_token s) ih

/-- The tokens of a value are read as an assignment of it. -/
theorem assignment_of_tokens (v : Value) : Assignment v.tokens v false := by
  cases v with
  | scalar s => exact .scalar (scalar_of_token s)
  | array items => exact @Assignment.array _ _ false (items_of_itemTokens items)

namespace Draft

variable (stop : Position)

/-- A written member is read as a property of the innermost open class. -/
theorem read_member {m : Member} (hm : m.Proper) {front : List Lexeme}
    (hf : tokensOf front = m.tokens) (rest : List Lexeme) (o : OpenClass) (os : List OpenClass)
    (forest : Forest) : ∃ p : Property, p.bare = m.declaration ∧
      read stop ⟨o :: os, forest⟩ (front ++ rest) =
        read stop ⟨{ o with properties := Property.fold o.properties p } :: os, forest⟩ rest := by
  obtain ⟨⟨_, position⟩, behind, rfl, rfl, hbehind⟩ := List.map_eq_cons_iff.mp hf
  refine ⟨⟨m.name, m.value, false, position⟩, rfl, ?_⟩
  apply read_of_statement
  have hread : readProperty stop m.name position (behind ++ rest) =
      .ok (⟨m.name, m.value, false, position⟩, rest) :=
    readProperty_of_assignment (assignment_of_tokens m.value) hbehind m.name position
  rw [statement]
  simp only [if_neg hm.name.2]
  exact bind_eq_ok.mpr ⟨_, hread, rfl⟩

/-- The members of a class are read as declarations of them, in order. -/
theorem read_members {ms : List Member} (hms : ∀ m ∈ ms, m.Proper) {front : List Lexeme}
    (hf : tokensOf front = ms.flatMap Member.tokens) (rest : List Lexeme) (o : OpenClass)
    (os : List OpenClass) (forest : Forest) : ∃ ps : List Property,
      ps.map Property.bare = ms.map Member.declaration ∧
      read stop ⟨o :: os, forest⟩ (front ++ rest) = read stop
        ⟨{ o with properties := ps.foldl Property.fold o.properties } :: os, forest⟩ rest := by
  induction ms generalizing front o with
  | nil =>
    obtain rfl := List.map_eq_nil_iff.mp hf
    exact ⟨[], rfl, rfl⟩
  | cons m ms ih =>
    obtain ⟨hm, hms⟩ := List.forall_mem_cons.mp hms
    obtain ⟨first, others, rfl, hfirst, hothers⟩ := List.map_eq_append_iff.mp hf
    obtain ⟨p, hp, hread⟩ := read_member stop hm hfirst (others ++ rest) o os forest
    obtain ⟨ps, hps, hmore⟩ := ih hms hothers { o with properties := Property.fold o.properties p }
    refine ⟨p :: ps, by rw [List.map_cons, List.map_cons, hp, hps], ?_⟩
    rw [List.append_assoc, hread, hmore]
    rfl

/-- Whatever has been read before, the tokens of the class are read as a declaration of it. -/
def Reads (c : Class) : Prop :=
  ∀ (draft : Draft) (front rest : List Lexeme), tokensOf front = c.tokens →
    ∃ d, d.bare = c.declaration ∧ read stop draft (front ++ rest) = read stop (draft.declare d) rest

theorem read_classes {cs : List Class} (hcs : ∀ c ∈ cs, Reads stop c) {front : List Lexeme}
    (hf : tokensOf front = cs.flatMap Class.tokens) (rest : List Lexeme) (draft : Draft) :
    ∃ ds : List Declaration, ds.map Declaration.bare = cs.map Class.declaration ∧
      read stop draft (front ++ rest) = read stop (ds.foldl declare draft) rest := by
  induction cs generalizing front draft with
  | nil =>
    obtain rfl := List.map_eq_nil_iff.mp hf
    exact ⟨[], rfl, rfl⟩
  | cons c cs ih =>
    obtain ⟨hc, hcs⟩ := List.forall_mem_cons.mp hcs
    obtain ⟨first, others, rfl, hfirst, hothers⟩ := List.map_eq_append_iff.mp hf
    obtain ⟨d, hd, hread⟩ := hc draft first (others ++ rest) hfirst
    obtain ⟨ds, hds, hmore⟩ := ih hcs hothers (draft.declare d)
    refine ⟨d :: ds, by rw [List.map_cons, List.map_cons, hd, hds], ?_⟩
    rw [List.append_assoc, hread, hmore]
    rfl

theorem declare_inside (ds : List Declaration) (o : OpenClass) (os : List OpenClass)
    (forest : Forest) : ds.foldl declare ⟨o :: os, forest⟩ =
      ⟨{ o with children := ds.foldl Declaration.fold o.children } :: os, forest⟩ := by
  induction ds generalizing o with
  | nil => rfl
  | cons d ds ih => exact ih { o with children := Declaration.fold o.children d }

theorem declare_outermost (ds : List Declaration) (forest : Forest) :
    ds.foldl declare ⟨[], forest⟩ = ⟨[], ds.foldl Declaration.fold forest⟩ := by
  induction ds generalizing forest with
  | nil => rfl
  | cons d ds ih => exact ih (Declaration.fold forest d)

/-- Declarations of classes whose names all differ stay as they are. -/
theorem fold_declarations {cs : List Class} {ds : List Declaration}
    (hk : (Roster.keys cs).Nodup) (hd : ds.map Declaration.bare = cs.map Class.declaration) :
    ds.foldl Declaration.fold [] = ds := by
  have hkeys : Roster.keys ds = Roster.keys cs := by
    have h := congrArg (List.map keyOf) hd
    rw [List.map_map, List.map_map] at h
    simp only [Function.comp_def, Declaration.keyOf_bare, Class.keyOf_declaration] at h
    exact h
  have hnodup : (Roster.keys ([] ++ ds)).Nodup := by rwa [List.nil_append, hkeys]
  exact Roster.foldl_absorb (fun d earlier => earlier.join d) [] ds hnodup

theorem fold_members {ms : List Member} {ps : List Property} (hk : (Roster.keys ms).Nodup)
    (hp : ps.map Property.bare = ms.map Member.declaration) :
    ps.foldl Property.fold [] = ps := by
  have hkeys : Roster.keys ps = Roster.keys ms := by
    have h := congrArg (List.map keyOf) hp
    rw [List.map_map, List.map_map] at h
    exact h
  exact Roster.foldl_absorb Property.join [] ps (by rwa [List.nil_append, hkeys])

/-- A proper class is read back from its tokens. The induction goes along the children. -/
theorem reads_class {c : Class} (hc : c.Proper) : Reads stop c := by
  induction hc with
  | @intro name base ms cs hn hb hm hmk _ hck ih =>
    intro draft front rest hf
    rw [Class.tokens, Class.tokensOfAll_eq] at hf
    obtain ⟨⟨_, p₁⟩, ls₁, rfl, rfl, h₁⟩ := List.map_eq_cons_iff.mp hf
    obtain ⟨⟨_, p₂⟩, ls₂, rfl, rfl, h₂⟩ := List.map_eq_cons_iff.mp h₁
    obtain ⟨⟨_, p₃⟩, ls₃, rfl, rfl, h₃⟩ := List.map_eq_cons_iff.mp h₂
    obtain ⟨members, ls₄, rfl, hmembers, h₄⟩ := List.map_eq_append_iff.mp h₃
    obtain ⟨classes, ls₅, rfl, hclasses, h₅⟩ := List.map_eq_append_iff.mp h₄
    obtain ⟨⟨_, p₄⟩, ls₆, rfl, rfl, h₆⟩ := List.map_eq_cons_iff.mp h₅
    obtain ⟨⟨_, p₅⟩, rfl, rfl⟩ := List.map_eq_singleton_iff.mp h₆
    -- two statements frame the class: one opens it, one closes it
    have hhead (behind : List Lexeme) : statement stop draft ⟨.word classKeyword, p₁⟩
        (⟨.word name, p₂⟩ :: ⟨.openBrace, p₃⟩ :: behind) =
          .ok (⟨⟨name, none, [], [], p₁, p₃⟩ :: draft.pending, draft.forest⟩, behind) := by
      have hread : readHead stop (⟨.word name, p₂⟩ :: ⟨.openBrace, p₃⟩ :: behind) =
          .ok (.opening name none p₃, behind) := readHead_eq_ok.mpr ⟨_, .plain hn.2, rfl⟩
      exact bind_eq_ok.mpr ⟨_, hread, rfl⟩
    have hclose (o : OpenClass) : statement stop ⟨o :: draft.pending, draft.forest⟩
        ⟨.closeBrace, p₄⟩ (⟨.semicolon, p₅⟩ :: rest) =
          .ok (draft.declare o.declaration, rest) := by
      have hread : readClassEnd stop (⟨.semicolon, p₅⟩ :: rest) = .ok rest :=
        readClassEnd_eq_ok.mpr (Or.inr ⟨p₅, rfl⟩)
      exact bind_eq_ok.mpr ⟨_, hread, rfl⟩
    -- between them the members and the children are read into the open class
    obtain ⟨ps, hps, hproperties⟩ := read_members stop hm hmembers
      (classes ++ (⟨.closeBrace, p₄⟩ :: ⟨.semicolon, p₅⟩ :: rest))
      ⟨name, none, [], [], p₁, p₃⟩ draft.pending draft.forest
    obtain ⟨ds, hds, hchildren⟩ := read_classes stop ih hclasses
      (⟨.closeBrace, p₄⟩ :: ⟨.semicolon, p₅⟩ :: rest)
      ⟨⟨name, none, ps, [], p₁, p₃⟩ :: draft.pending, draft.forest⟩
    -- no key occurs twice, so nothing that is read is folded into anything else
    rw [fold_members hmk hps] at hproperties
    rw [declare_inside, fold_declarations hck hds] at hchildren
    refine ⟨.body name none ps ds p₁, ?_, ?_⟩
    · rw [Declaration.bare, Declaration.bareAll_eq, hps, hds, Class.declaration,
        Class.declarations_eq]
    · calc
        read stop draft (⟨.word classKeyword, p₁⟩ :: ⟨.word name, p₂⟩ :: ⟨.openBrace, p₃⟩ ::
            (members ++ (classes ++ [⟨.closeBrace, p₄⟩, ⟨.semicolon, p₅⟩])) ++ rest)
          = read stop ⟨⟨name, none, [], [], p₁, p₃⟩ :: draft.pending, draft.forest⟩
              (members ++ (classes ++ (⟨.closeBrace, p₄⟩ :: ⟨.semicolon, p₅⟩ :: rest))) := by
            rw [List.cons_append, List.cons_append, List.cons_append, read_of_statement (hhead _)]
            simp
        _ = read stop ⟨⟨name, none, ps, [], p₁, p₃⟩ :: draft.pending, draft.forest⟩
              (classes ++ (⟨.closeBrace, p₄⟩ :: ⟨.semicolon, p₅⟩ :: rest)) := hproperties
        _ = read stop ⟨⟨name, none, ps, ds, p₁, p₃⟩ :: draft.pending, draft.forest⟩
              (⟨.closeBrace, p₄⟩ :: ⟨.semicolon, p₅⟩ :: rest) := hchildren
        _ = read stop (draft.declare (.body name none ps ds p₁)) rest :=
            read_of_statement (hclose ⟨name, none, ps, ds, p₁, p₃⟩)

end Draft

/-- The text of a tree is parsed to the declarations of its classes. -/
theorem parse_text {t : Tree} (h : t.Proper) : ∃ forest, parse t.text = .ok forest ∧
    forest.map Declaration.bare = t.root.children.map Class.declaration := by
  obtain ⟨lexemes, hl, htokens⟩ := lexes_text h .start
  rw [Class.tokensOfAll_eq] at htokens
  obtain ⟨ds, hds, hread⟩ := Draft.read_classes lexemes.stop
    (fun c hc => Draft.reads_class lexemes.stop (h.root.children c hc)) htokens [] .empty
  rw [List.append_nil, Draft.empty, Draft.declare_outermost,
    Draft.fold_declarations h.root.childKeys hds, Draft.read_nil] at hread
  exact ⟨ds, bind_eq_ok.mpr ⟨lexemes, hl, hread⟩, hds⟩

end Fragment

end Overlay
