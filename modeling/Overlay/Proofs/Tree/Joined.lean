import Overlay.Proofs.Fragment.Sequence
import Overlay.Proofs.Tree.Receive

/-! To merge a fragment is to follow its statements. The parser folds whatever is declared more than
once and the tree takes over the outcome; the same tree comes about if each statement changes the
tree on its own, as long as there are no bases and no announcements and no property is both assigned
scalars and extended. As the statements of two texts in a row are those of the one and those of the
other, it makes no difference then whether the texts are merged as one fragment or as two. -/
namespace Overlay
open Attempt (bind_eq_ok pure_eq_ok)
open Fragment (Statement OpenClass Draft Consists Says Closed tokensOf classKeyword)

namespace Fragment.Statement

/-- Holds of statements that neither announce a class nor name a base. -/
def Plain : Statement → Prop
  | announce _ => False
  | enter _ base => base = none
  | assign _ _ _ => True
  | leave => True

def assignments (scope : List String) : List Statement → List (List String × Property)
  | [] => []
  | announce _ :: ss => assignments scope ss
  | enter name _ :: ss => assignments (scope ++ [nameKey name]) ss
  | assign name value append :: ss =>
    (scope, ⟨name, value, append, .start⟩) :: assignments scope ss
  | leave :: ss => assignments scope.dropLast ss

def scopeBehind (scope : List String) : List Statement → List String
  | [] => scope
  | announce _ :: ss => scopeBehind scope ss
  | enter name _ :: ss => scopeBehind (scope ++ [nameKey name]) ss
  | assign _ _ _ :: ss => scopeBehind scope ss
  | leave :: ss => scopeBehind scope.dropLast ss

/-- A property is assigned a scalar by one of the declarations, and extended by one of them. -/
def Mixed (all : List (List String × Property)) : Prop :=
  ∃ a ∈ all, ∃ b ∈ all, a.1 = b.1 ∧ keyOf a.2 = keyOf b.2 ∧ a.2.value.isArray = false ∧
    b.2.append = true

theorem assignments_append (scope : List String) (ss more : List Statement) :
    assignments scope (ss ++ more) =
      assignments scope ss ++ assignments (scopeBehind scope ss) more := by
  induction ss generalizing scope with
  | nil => rfl
  | cons s ss ih => cases s <;> simp [assignments, scopeBehind, ih]

end Fragment.Statement

namespace Class

variable {c : Class}

/-- What becomes of a class by statements, the next of which stands in the class at the scope. -/
def follow (scope : List String) (c : Class) : List Statement → Class
  | [] => c
  | .announce _ :: ss => c.follow scope ss
  | .enter name _ :: ss =>
    (c.alter (fun level => level.enrol name fun d => d) scope).follow (scope ++ [nameKey name]) ss
  | .assign name value append :: ss =>
    (c.alter (fun d => d.assign ⟨name, value, append, .start⟩) scope).follow scope ss
  | .leave :: ss => c.follow scope.dropLast ss

theorem follow_append (scope : List String) (c : Class) (ss more : List Statement) :
    c.follow scope (ss ++ more) =
      (c.follow scope ss).follow (Statement.scopeBehind scope ss) more := by
  induction ss generalizing scope c with
  | nil => rfl
  | cons s ss ih => cases s <;> exact ih _ _

end Class

namespace Fragment

variable {S : List String → String → Prop} {o o' : OpenClass} {os : List OpenClass}
  {draft : Draft} {g : Class → Class}

def pathOf : List OpenClass → List String
  | [] => []
  | o :: os => pathOf os ++ [nameKey o.name]

def opened (c : Class) : List OpenClass → Class
  | [] => c
  | o :: os => (opened c os).alter (fun level => level.receive o.declaration) (pathOf os)

def Draft.amount (draft : Draft) (c : Class) : Class :=
  opened (c.receiveAll draft.forest) draft.pending

/-- Open classes that can be folded into others where they stand. -/
def OpenSteady (S : List String → String → Prop) : List OpenClass → Prop
  | [] => True
  | o :: os => o.declaration.Steady S (pathOf os) ∧ OpenSteady S os

structure Draft.Steady (S : List String → String → Prop) (draft : Draft) : Prop where
  pending : OpenSteady S draft.pending
  forest : Declaration.AllSteady S [] draft.forest

/-- A change of what an open class says is a change of the class at the path. -/
theorem opened_changed (hf : ∀ c : Class, c.fill o'.declaration = g (c.fill o.declaration))
    (hn : o'.name = o.name) (hg : ∀ c : Class, (g c).name = c.name) (c : Class) :
    opened c (o' :: os) = (opened c (o :: os)).alter g (pathOf (o :: os)) := by
  have hname (level : Class) : (level.receive o.declaration).name = level.name :=
    level.name_receive o.declaration
  have hlevel : (fun level : Class => level.receive o'.declaration) =
      fun level => (level.receive o.declaration).alter g [nameKey o.name] := by
    funext level
    have hfill (d : Class) : (d.fill o.declaration).name = d.name := d.name_fill o.declaration
    have hsame : o'.declaration.name = o.name := hn
    rw [Class.receive_eq rfl, Class.receive_eq rfl, funext hf, hsame]
    exact (Class.alter_enrol hfill hg level o.name).symm
  rw [opened, opened, pathOf, Class.alter_append, Class.alter_alter hname, hlevel]

/-- A class that is opened is there without anything in it. -/
theorem steady_opening (h : draft.Steady S) (name : String) (p brace : Text.Position) :
    (draft.start p (.opening name none brace)).Steady S ∧ ∀ c,
      (draft.start p (.opening name none brace)).amount c =
        (draft.amount c).alter (fun level => level.enrol name fun d => d)
          (pathOf draft.pending) := by
  have hbody : Declaration.Steady S (pathOf draft.pending) (.body name none [] [] p) :=
    .body (List.forall_mem_nil _) List.nodup_nil (List.forall_mem_nil _) List.nodup_nil
  refine ⟨⟨⟨hbody, h.pending⟩, h.forest⟩, fun c => ?_⟩
  have hempty : (fun level : Class => level.receive (.body name none [] [] p)) =
      fun level => level.enrol name fun d => d := by
    funext level
    have hfill (d : Class) : d.fill (.body name none [] [] p) = d := by
      rw [Class.fill, Declaration.properties, Declaration.children, Class.receiveAll,
        Class.takeOver_none]
      rfl
    rw [Class.receive_eq rfl, funext hfill]
    rfl
  exact congrArg (fun f => (draft.amount c).alter f (pathOf draft.pending)) hempty

/-- One more assignment to an open class keeps it steady. -/
theorem steady_assigning {forest : Forest} (h : Draft.Steady S ⟨o :: os, forest⟩) {p : Property}
    (hp : p.Steady (S (pathOf (o :: os)) (keyOf p))) :
    Draft.Steady S ⟨{ o with properties := Property.fold o.properties p } :: os, forest⟩ ∧
      ∀ c, Draft.amount ⟨{ o with properties := Property.fold o.properties p } :: os, forest⟩ c =
        (Draft.amount ⟨o :: os, forest⟩ c).alter (fun d => d.assign p) (pathOf (o :: os)) := by
  obtain ⟨⟨hfirst, hothers⟩, hforest⟩ := h
  obtain ⟨name, base, ps, children, position, brace⟩ := o
  cases hfirst with
  | body hps hpk hc hck =>
    obtain ⟨hall, hnodup, hassign⟩ := Declaration.steady_properties hps hpk
      (List.forall_mem_singleton.mpr hp)
    have hfill (d : Class) :
        d.fill (OpenClass.declaration
          ⟨name, none, Property.fold ps p, children, position, brace⟩) =
        (d.fill (OpenClass.declaration ⟨name, none, ps, children, position, brace⟩)).assign p := by
      simp only [Class.fill, OpenClass.declaration, Declaration.properties, Declaration.children,
        Class.takeOver_none]
      exact (congrArg (Class.receiveAll · children) (hassign d)).trans
        (Class.assign_receiveAll (ps.foldl Class.assign d) children [p]).symm
    exact ⟨⟨⟨.body hall hnodup hc hck, hothers⟩, hforest⟩, fun c =>
      opened_changed (g := fun d => d.assign p) hfill rfl (fun _ => rfl) (c.receiveAll forest)⟩

/-- Where a class ends, it counts for what it has been while it was open. -/
theorem steady_closing {forest : Forest} (h : Draft.Steady S ⟨o :: os, forest⟩) :
    (Draft.declare ⟨os, forest⟩ o.declaration).Steady S ∧ ∀ c,
      (Draft.declare ⟨os, forest⟩ o.declaration).amount c =
        Draft.amount ⟨o :: os, forest⟩ c := by
  obtain ⟨⟨hfirst, hothers⟩, hforest⟩ := h
  cases os with
  | nil =>
    obtain ⟨hfolded, hreceive⟩ := Declaration.receiveAll_folded hfirst hforest
    exact ⟨⟨trivial, hfolded⟩, hreceive⟩
  | cons outer os =>
    obtain ⟨houter, hothers⟩ := hothers
    obtain ⟨name, base, ps, children, position, brace⟩ := outer
    cases houter with
    | body hps hpk hc hck =>
      obtain ⟨hfolded, hreceive⟩ := Declaration.receiveAll_folded hfirst ⟨hc, hck⟩
      have hfill (d : Class) :
          d.fill (OpenClass.declaration ⟨name, none, ps, Declaration.fold children o.declaration,
            position, brace⟩) =
          (d.fill (OpenClass.declaration ⟨name, none, ps, children, position, brace⟩)).receive
            o.declaration := hreceive _
      exact ⟨⟨⟨.body hps hpk hfolded.all hfolded.keys, hothers⟩, hforest⟩, fun c =>
        opened_changed (g := fun d => d.receive o.declaration) hfill rfl
          (fun level => level.name_receive o.declaration) (c.receiveAll forest)⟩

theorem pathOf_declare (os : List OpenClass) (forest : Forest) (d : Declaration) :
    pathOf (Draft.declare ⟨os, forest⟩ d).pending = pathOf os := by
  cases os <;> rfl

variable {stop p : Text.Position} {ls : List Lexeme} {forest : Forest} {ts : List Token}
  {ss : List Statement}

theorem pending_of_name {name : String} (hn : name ≠ classKeyword)
    (hr : draft.read stop (⟨.word name, p⟩ :: ls) = .ok forest) :
    ∃ o os, draft.pending = o :: os := by
  obtain ⟨next, rest, hs, -⟩ := Draft.statement_of_read hr
  rw [Draft.statement] at hs
  simp only [if_neg hn] at hs
  cases hpending : draft.pending with
  | nil => simp [hpending] at hs
  | cons o os => exact ⟨o, os, rfl⟩

theorem pending_of_close (hr : draft.read stop (⟨.closeBrace, p⟩ :: ls) = .ok forest) :
    ∃ o os, draft.pending = o :: os := by
  obtain ⟨next, rest, hs, -⟩ := Draft.statement_of_read hr
  rw [Draft.statement] at hs
  cases hpending : draft.pending with
  | nil => simp [hpending] at hs
  | cons o os => exact ⟨o, os, rfl⟩

/-- What reading makes of a draft that stands for what has been read so far. -/
structure Follows (S : List String → String → Prop) (draft : Draft) (ss : List Statement)
    (forest : Forest) : Prop where
  steady : Declaration.AllSteady S [] forest
  scope : Statement.scopeBehind (pathOf draft.pending) ss = []
  amount : ∀ c : Class,
    c.receiveAll forest = (draft.amount c).follow (pathOf draft.pending) ss

/-- At the end no class is open. -/
theorem follows_nil (hd : draft.Steady S) (hr : draft.read stop [] = .ok forest) :
    Follows S draft [] forest := by
  obtain ⟨pending, done⟩ := draft
  rw [Draft.read_nil, Draft.finish] at hr
  cases pending with
  | nil =>
    obtain rfl := Except.ok.inj hr
    exact ⟨hd.forest, rfl, fun _ => rfl⟩
  | cons o os => simp at hr

/-- To close a class is to fold it into its siblings. -/
theorem follows_close {o : OpenClass} {os : List OpenClass} {done : Forest}
    (hd : Draft.Steady S ⟨o :: os, done⟩)
    (hf : Follows S (Draft.declare ⟨os, done⟩ o.declaration) ss forest) :
    Follows S ⟨o :: os, done⟩ (.leave :: ss) forest := by
  obtain ⟨hsteady, hscope, hamount⟩ := hf
  have hpath : (pathOf (o :: os)).dropLast = pathOf os := List.dropLast_concat
  rw [pathOf_declare] at hscope hamount
  refine ⟨hsteady, ?_, fun c => ?_⟩
  · rw [Statement.scopeBehind, hpath, hscope]
  · rw [Class.follow, hpath, hamount, (steady_closing hd).2]

/-- Reading a fragment amounts to following its statements. -/
theorem follows_of_read (hc : Consists ts ss) (hts : tokensOf ls = ts)
    (hr : draft.read stop ls = .ok forest) (hd : draft.Steady S) (hp : ∀ s ∈ ss, s.Plain)
    (ha : ∀ a ∈ Statement.assignments (pathOf draft.pending) ss,
      a.2.Steady (S a.1 (keyOf a.2))) : Follows S draft ss forest := by
  induction hc generalizing draft ls with
  | nil =>
    obtain rfl := List.map_eq_nil_iff.mp hts
    exact follows_nil hd hr
  -- announcing a class or naming a base is not plain
  | announce => exact absurd (hp _ List.mem_cons_self) id
  | derive => exact absurd (hp _ List.mem_cons_self) (Option.some_ne_none _)
  | @enter name ts ss hn _ ih =>
    obtain ⟨⟨_, p₁⟩, ls₁, rfl, rfl, h₁⟩ := List.map_eq_cons_iff.mp hts
    obtain ⟨⟨_, p₂⟩, ls₂, rfl, rfl, h₂⟩ := List.map_eq_cons_iff.mp h₁
    obtain ⟨⟨_, p₃⟩, rest, rfl, rfl, hrest⟩ := List.map_eq_cons_iff.mp h₂
    have hhead : Heads [⟨.word name, p₂⟩, ⟨.openBrace, p₃⟩] (.opening name none p₃) := .plain hn
    -- the class is open now, and the rest is followed from there
    obtain ⟨hopened, hamount⟩ := steady_opening hd name p₁ p₃
    have hread := (Readable.read_head hhead draft p₁ rest).symm.trans hr
    obtain ⟨hsteady, hscope, hfollow⟩ := ih hrest hread hopened
      (fun s hs => hp s (List.mem_cons_of_mem _ hs)) ha
    refine ⟨hsteady, hscope, fun c => ?_⟩
    rw [hfollow, hamount]
    rfl
  | @assign name value append us ts ss hn hassign _ ih =>
    obtain ⟨⟨_, position⟩, ls₁, rfl, rfl, h₁⟩ := List.map_eq_cons_iff.mp hts
    obtain ⟨front, rest, rfl, hfront, hrest⟩ := List.map_eq_append_iff.mp h₁
    -- a property outside of all classes would not have been read
    obtain ⟨pending, done⟩ := draft
    obtain ⟨o, os, rfl⟩ : ∃ o os, pending = o :: os := pending_of_name hn hr
    have hread := (Readable.read_property hn hassign hfront o os done position rest).symm.trans hr
    obtain ⟨hfirst, hothers⟩ := List.forall_mem_cons.mp ha
    obtain ⟨hassigned, hamount⟩ := steady_assigning hd
      (p := ⟨name, value, append, position⟩) ⟨hfirst.assigns, hfirst.appends⟩
    obtain ⟨hsteady, hscope, hfollow⟩ := ih hrest hread hassigned
      (fun s hs => hp s (List.mem_cons_of_mem _ hs)) hothers
    refine ⟨hsteady, hscope, fun c => ?_⟩
    rw [hfollow, hamount]
    rfl
  | @leave ts ss _ ih =>
    obtain ⟨⟨_, p₁⟩, ls₁, rfl, rfl, h₁⟩ := List.map_eq_cons_iff.mp hts
    obtain ⟨⟨_, p₂⟩, rest, rfl, rfl, hrest⟩ := List.map_eq_cons_iff.mp h₁
    obtain ⟨pending, done⟩ := draft
    obtain ⟨o, os, rfl⟩ : ∃ o os, pending = o :: os := pending_of_close hr
    have hend : readClassEnd stop (⟨.semicolon, p₂⟩ :: rest) = .ok rest :=
      readClassEnd_eq_ok.mpr (.inr ⟨p₂, rfl⟩)
    have hread := (Readable.read_close hend o ⟨os, done⟩ p₁).symm.trans hr
    -- behind the brace, the path is that of the class around the one that is closed
    have hpath : (pathOf (o :: os)).dropLast = pathOf os := List.dropLast_concat
    rw [Statement.assignments, hpath, ← pathOf_declare os done o.declaration] at ha
    exact follows_close hd (ih hrest hread (steady_closing hd).1
      (fun s hs => hp s (List.mem_cons_of_mem _ hs)) ha)
  | last =>
    obtain ⟨⟨_, p₁⟩, ls₁, rfl, rfl, h₁⟩ := List.map_eq_cons_iff.mp hts
    obtain rfl := List.map_eq_nil_iff.mp h₁
    obtain ⟨pending, done⟩ := draft
    obtain ⟨o, os, rfl⟩ : ∃ o os, pending = o :: os := pending_of_close hr
    have hend : readClassEnd stop [] = .ok [] := readClassEnd_eq_ok.mpr (.inl ⟨rfl, rfl⟩)
    have hread := (Readable.read_close hend o ⟨os, done⟩ p₁).symm.trans hr
    exact follows_close hd (follows_nil (steady_closing hd).1 hread)

end Fragment

namespace Tree

open Fragment.Statement (assignments Mixed)

/-- To merge a fragment is to follow its statements. -/
theorem apply_followed {S : List String → String → Prop} {text : String} {forest : Forest}
    {ss : List Statement} (hparse : Fragment.parse text = .ok forest) (hs : Says text ss)
    (hp : ∀ s ∈ ss, s.Plain) (ha : ∀ a ∈ assignments [] ss, a.2.Steady (S a.1 (keyOf a.2)))
    (t : Tree) (source : String) :
    Statement.scopeBehind [] ss = [] ∧ t.apply source forest = .ok ⟨t.root.follow [] ss⟩ := by
  obtain ⟨lexemes, hl, hr⟩ := bind_eq_ok.mp hparse
  obtain ⟨lexemes', hl', hc⟩ := hs
  obtain rfl := Except.ok.inj (hl.symm.trans hl')
  have hempty : Draft.empty.Steady S := ⟨trivial, ⟨List.forall_mem_nil _, List.nodup_nil⟩⟩
  obtain ⟨hsteady, hscope, hamount⟩ := Fragment.follows_of_read hc rfl hr hempty hp ha
  refine ⟨hscope, ?_⟩
  have hstart : Draft.empty.amount t.root = t.root := by
    rw [Draft.amount, Draft.empty, Class.receiveAll]
    rfl
  rw [apply_received (fun d hd => (hsteady.all d hd).baseFree) t, hamount, hstart]
  rfl

/-- Where nothing is mixed, it is known of every property whether scalars are assigned to it. -/
theorem steady_of_not_mixed {all : List (List String × Property)} (hm : ¬Mixed all) :
    ∃ S : List String → String → Prop, ∀ a ∈ all, a.2.Steady (S a.1 (keyOf a.2)) := by
  refine ⟨fun path key => ∃ a ∈ all, a.1 = path ∧ keyOf a.2 = key ∧ a.2.value.isArray = false, ?_⟩
  intro a ha
  refine ⟨fun hscalar => ⟨a, ha, rfl, rfl, hscalar⟩, ?_⟩
  rintro happend ⟨b, hb, hpath, hkey, hscalar⟩
  exact hm ⟨b, hb, a, ha, hpath, hkey, hscalar, happend⟩

/-- A text and, on the lines behind it, another one make up a fragment, which parses if the two do.
To merge it is to merge the two in a row: the tree is the same in every respect, if there are no
bases and no announced classes in the texts, and no property to which they assign a scalar and
append elements. -/
theorem apply_joined (t : Tree) (first second : String) (f g : Forest) (ss ss' : List Statement)
    (source source' joint : String) (hf : Fragment.parse first = .ok f)
    (hg : Fragment.parse second = .ok g) (hs : Says first ss) (hs' : Says second ss')
    (hc : Closed first) (hp : ∀ s ∈ ss ++ ss', s.Plain)
    (hm : ¬Mixed (assignments [] ss ++ assignments [] ss')) :
    ∃ forest next, Fragment.parse (first ++ "\n" ++ second) = .ok forest ∧
      t.apply joint forest = .ok next ∧ t.applyAll [(source, f), (source', g)] = .ok next := by
  obtain ⟨S, hsteady⟩ := steady_of_not_mixed hm
  obtain ⟨hfirst, hsecond⟩ := List.forall_mem_append.mp hsteady
  obtain ⟨hplain, hplain'⟩ := List.forall_mem_append.mp hp
  obtain ⟨hscope, happly⟩ := apply_followed hf hs hplain hfirst t source
  obtain ⟨-, happly'⟩ := apply_followed hg hs' hplain' hsecond ⟨t.root.follow [] ss⟩ source'
  obtain ⟨forest, hforest⟩ := Fragment.exists_parse_lines hf hg hc
  have hboth : ∀ a ∈ assignments [] (ss ++ ss'), a.2.Steady (S a.1 (keyOf a.2)) := by
    rw [Statement.assignments_append, hscope]
    exact hsteady
  obtain ⟨-, hjoint⟩ := apply_followed hforest (Fragment.says_lines hs hs' hc) hp hboth t joint
  refine ⟨forest, _, hforest, hjoint, ?_⟩
  rw [applyAll, happly, Class.follow_append, hscope]
  exact bind_eq_ok.mpr ⟨_, rfl, bind_eq_ok.mpr ⟨_, happly', rfl⟩⟩

/-- A text that repeats a class, adds to an array, and lacks its last semicolon. -/
theorem says_repeated : Says "class a{X[]+={2};};class A{y=3;}"
    [.enter "a" none, .assign "X" (.array [.number "2"]) true, .leave, .enter "A" none,
      .assign "y" (.scalar (.number "3")) false, .leave] := by
  obtain ⟨lexemes, hl, ht⟩ : ∃ lexemes, lex "class a{X[]+={2};};class A{y=3;}" = .ok lexemes ∧
      decide (tokensOf lexemes.list = [.word classKeyword, .word "a", .openBrace, .word "X",
        .openBracket, .closeBracket, .append, .openBrace, .number "2", .closeBrace, .semicolon,
        .closeBrace, .semicolon, .word classKeyword, .word "A", .openBrace, .word "y", .assign,
        .number "3", .semicolon, .closeBrace]) = true :=
    Attempt.exists_ok (by decide +kernel)
  have hadd : Fragment.Assignment [.openBracket, .closeBracket, .append, .openBrace, .number "2",
      .closeBrace, .semicolon] (.array [.number "2"]) true := @Fragment.Assignment.array
        [.number "2", .closeBrace] [.number "2"] true (.last rfl)
  have hset : Fragment.Assignment [.assign, .number "3", .semicolon] (.scalar (.number "3"))
      false := .scalar rfl
  refine ⟨lexemes, hl, ?_⟩
  rw [of_decide_eq_true ht]
  exact .enter (by decide) (.assign (by decide) hadd (.leave
    (.enter (by decide) (.assign (by decide) hset .last))))

theorem says_first : Closed "class A{x[]={1};};" ∧ Says "class A{x[]={1};};"
    [.enter "A" none, .assign "x" (.array [.number "1"]) false, .leave] := by
  obtain ⟨lexemes, hl, ht⟩ : ∃ lexemes, lex "class A{x[]={1};};" = .ok lexemes ∧
      decide (tokensOf lexemes.list = [.word classKeyword, .word "A", .openBrace, .word "x",
        .openBracket, .closeBracket, .assign, .openBrace, .number "1", .closeBrace, .semicolon,
        .closeBrace, .semicolon]) = true :=
    Attempt.exists_ok (by decide +kernel)
  have hset : Fragment.Assignment [.openBracket, .closeBracket, .assign, .openBrace, .number "1",
      .closeBrace, .semicolon] (.array [.number "1"]) false := @Fragment.Assignment.array
        [.number "1", .closeBrace] [.number "1"] false (.last rfl)
  have htokens := of_decide_eq_true ht
  refine ⟨⟨lexemes, hl, ?_⟩, lexemes, hl, ?_⟩
  · rw [htokens]
    rintro t ⟨⟩
    rfl
  · rw [htokens]
    exact .enter (by decide) (.assign (by decide) hset (.leave .nil))

theorem apply_joined_repeated : ∃ f g forest next,
    Fragment.parse "class A{x[]={1};};" = .ok f ∧
    Fragment.parse "class a{X[]+={2};};class A{y=3;}" = .ok g ∧
    Fragment.parse ("class A{x[]={1};};" ++ "\n" ++ "class a{X[]+={2};};class A{y=3;}") =
      .ok forest ∧
    Tree.apply ⟨⟨"", none, [], [Class.stocked]⟩⟩ "both.cpp" forest = .ok next ∧
    Tree.applyAll ⟨⟨"", none, [], [Class.stocked]⟩⟩ [("a.cpp", f), ("b.cpp", g)] = .ok next := by
  obtain ⟨f, hf⟩ : ∃ f, Fragment.parse "class A{x[]={1};};" = .ok f :=
    Attempt.isOk_iff.mp (by decide +kernel)
  obtain ⟨g, hg⟩ : ∃ g, Fragment.parse "class a{X[]+={2};};class A{y=3;}" = .ok g :=
    Attempt.isOk_iff.mp (by decide +kernel)
  obtain ⟨hclosed, hsays⟩ := says_first
  have hkeys : nameKey "y" ≠ nameKey "X" := by decide +kernel
  obtain ⟨forest, next, hforest, hnext, hboth⟩ :=
    apply_joined ⟨⟨"", none, [], [Class.stocked]⟩⟩ _ _ f g _ _ "a.cpp" "b.cpp" "both.cpp" hf hg
      hsays says_repeated hclosed (by simp [Statement.Plain])
      (by simp [Mixed, assignments, Value.isArray, keyOf, Named.name, hkeys])
  exact ⟨f, g, forest, next, hf, hg, hforest, hnext, hboth⟩

end Tree

end Overlay
