import Overlay.Fragment.Parse
import Overlay.Proofs.Fragment.Statement
import Overlay.Proofs.Name
import Overlay.Proofs.Token.Lex

namespace Overlay
open Text (Position)
open Number (IsLiteral)
open Fragment (classKeyword tokensOf)
open Attempt (bind_eq_ok pure_eq_ok)

def IsName (name : String) : Prop := IsWord name ∧ name ≠ classKeyword

instance (name : String) : Decidable (IsName name) := inferInstanceAs (Decidable (_ ∧ _))

def Scalar.Proper : Scalar → Prop
  | number literal => IsLiteral literal.toList
  | text value => IsLine value
  | flag _ => True

instance : DecidablePred Scalar.Proper
  | .number literal => inferInstanceAs (Decidable (IsLiteral literal.toList))
  | .text value => inferInstanceAs (Decidable (IsLine value))
  | .flag _ => inferInstanceAs (Decidable True)

def Value.Proper : Value → Prop
  | scalar s => s.Proper
  | array items => ∀ s ∈ items, s.Proper

instance : DecidablePred Value.Proper
  | .scalar s => inferInstanceAs (Decidable s.Proper)
  | .array items => inferInstanceAs (Decidable (∀ s ∈ items, s.Proper))

structure Property.Proper (p : Property) : Prop where
  name : IsName p.name
  value : p.value.Proper
  append : p.append = true → p.value.isArray = true

inductive Declaration.Proper : Declaration → Prop
  | forward {name : String} {position : Position} (hn : IsName name) :
      Proper (.forward name position)
  | body {name : String} {base : Option String} {properties : List Property}
      {children : List Declaration} {position : Position} (hn : IsName name)
      (hb : ∀ b ∈ base, IsName b) (hp : ∀ p ∈ properties, p.Proper)
      (hpk : (Roster.keys properties).Nodup) (hc : ∀ d ∈ children, Proper d)
      (hck : (Roster.keys children).Nodup) : Proper (.body name base properties children position)

structure Forest.Proper (forest : Forest) : Prop where
  all : ∀ d ∈ forest, d.Proper
  keys : (Roster.keys forest).Nodup

theorem Forest.proper_nil : Forest.Proper [] := ⟨by simp, List.nodup_nil⟩

/-- Joined declarations of a property are as proper as the declarations. -/
theorem Property.proper_join {later earlier : Property} (hl : later.Proper)
    (he : earlier.Proper) : (later.join earlier).Proper := by
  rw [join]
  split
  · rename_i items more _ hi hm
    have hitems : ∀ s ∈ items, s.Proper := by
      have h := he.value
      rwa [hi] at h
    have hmore : ∀ s ∈ more, s.Proper := by
      have h := hl.value
      rwa [hm] at h
    refine ⟨he.name, ?_, fun _ => rfl⟩
    intro s hs
    rcases List.mem_append.mp hs with hs | hs
    · exact hitems s hs
    · exact hmore s hs
  · exact ⟨he.name, hl.value, hl.append⟩

/-- A further declaration is joined to one of its name or stands behind the others, and the names
stay apart. -/
theorem Property.proper_fold {declared : List Property} {p : Property}
    (h : ∀ p ∈ declared, p.Proper) (hk : (Roster.keys declared).Nodup) (hp : p.Proper) :
    (∀ q ∈ fold declared p, q.Proper) ∧ (Roster.keys (fold declared p)).Nodup := by
  refine ⟨Roster.forall_absorb h hp fun q _ _ hq => proper_join hp hq, ?_⟩
  apply Roster.nodup_absorb _ hk
  intro q _ hq
  rw [← hq, join]
  split <;> rfl

theorem Property.proper_foldl {declared more : List Property} (h : ∀ p ∈ declared, p.Proper)
    (hk : (Roster.keys declared).Nodup) (hm : ∀ p ∈ more, p.Proper) :
    (∀ q ∈ more.foldl fold declared, q.Proper) ∧
      (Roster.keys (more.foldl fold declared)).Nodup := by
  induction more generalizing declared with
  | nil => exact ⟨h, hk⟩
  | cons p ps ih =>
    obtain ⟨hall, hkeys⟩ := proper_fold h hk (hm p List.mem_cons_self)
    exact ih hall hkeys fun q hq => hm q (List.mem_cons_of_mem p hq)

namespace Declaration

theorem keyOf_join {earlier d : Declaration} (hk : keyOf earlier = keyOf d) :
    keyOf (earlier.join d) = keyOf d := by
  cases d with
  | forward name position => rw [join, hk]
  | body name base properties children position =>
    cases earlier with
    | forward name₀ position₀ =>
      rw [join]
    | body name₀ base₀ properties₀ children₀ position₀ =>
      rw [join, ← hk]
      rfl

/-- Siblings stay proper if joining keeps each of them proper. -/
theorem proper_fold_of_join {siblings : Forest} {d : Declaration} (h : Forest.Proper siblings)
    (hd : d.Proper) (hj : ∀ earlier : Declaration, earlier.Proper → (earlier.join d).Proper) :
    Forest.Proper (fold siblings d) :=
  ⟨Roster.forall_absorb h.all hd fun earlier _ _ he => hj earlier he,
    Roster.nodup_absorb (fun _ _ hk => keyOf_join hk) h.keys⟩

/-- A proper declaration joined to an earlier one gives a proper one. The induction goes along the
children that are folded into each other. -/
theorem proper_join {d : Declaration} (hd : d.Proper) {earlier : Declaration}
    (he : earlier.Proper) : (earlier.join d).Proper := by
  -- on the later declaration: its children are folded one by one into those of the earlier one
  induction hd generalizing earlier with
  | forward hn =>
    rw [join]
    exact he
  | @body name base properties children position hn hb hp hpk hc hck ih =>
    cases he with
    | forward hn₀ =>
      rw [join]
      exact .body hn hb hp hpk hc hck
    | @body name₀ base₀ properties₀ children₀ position₀ hn₀ hb₀ hp₀ hpk₀ hc₀ hck₀ =>
      obtain ⟨hall, hkeys⟩ := Property.proper_foldl hp₀ hpk₀ hp
      have hchildren (ds : List Declaration) (hds : ∀ d ∈ ds, d ∈ children) (forest : Forest)
          (hf : Forest.Proper forest) : Forest.Proper (ds.foldl fold forest) := by
        induction ds generalizing forest with
        | nil => exact hf
        | cons d ds ihd =>
          have hd := hds d List.mem_cons_self
          refine ihd (fun e he => hds e (List.mem_cons_of_mem d he)) _ ?_
          exact proper_fold_of_join hf (hc d hd) fun earlier he => ih d hd he
      have hc := hchildren children (fun d hd => hd) children₀ ⟨hc₀, hck₀⟩
      rw [join, foldAll_eq_foldl]
      refine .body hn₀ ?_ hall hkeys hc.all hc.keys
      cases base with
      | none => exact hb₀
      | some b => exact hb

theorem proper_fold {siblings : Forest} {d : Declaration} (h : Forest.Proper siblings)
    (hd : d.Proper) : Forest.Proper (fold siblings d) :=
  proper_fold_of_join h hd fun _ => proper_join hd

end Declaration

namespace Fragment

structure OpenClass.Proper (o : OpenClass) : Prop where
  name : IsName o.name
  base : ∀ b ∈ o.base, IsName b
  properties : ∀ p ∈ o.properties, p.Proper
  keys : (Roster.keys o.properties).Nodup
  children : Forest.Proper o.children

structure Draft.Proper (draft : Draft) : Prop where
  pending : ∀ o ∈ draft.pending, o.Proper
  forest : Forest.Proper draft.forest

theorem Draft.Proper.innermost {draft : Draft} (h : draft.Proper) {o : OpenClass}
    {os : List OpenClass} (ho : draft.pending = o :: os) :
    o.Proper ∧ ∀ outer ∈ os, outer.Proper := by
  have hpending := h.pending
  rw [ho] at hpending
  exact List.forall_mem_cons.mp hpending

variable {stop : Position} {ls rest : List Lexeme}

theorem scalar_proper {t : Token} {s : Scalar} (ht : t.Proper) (h : scalar? t = some s) :
    s.Proper := by
  cases t with
  | number literal =>
    obtain rfl := Option.some.inj h
    exact ht
  | text value =>
    obtain rfl := Option.some.inj h
    exact ht
  | word name =>
    rw [scalar?] at h
    split_ifs at h <;> (obtain rfl := Option.some.inj h; trivial)
  | _ => simp [scalar?] at h

/-- The elements of an array are as proper as their tokens. -/
theorem items_proper {ts : List Token} {items : List Scalar} (h : Items ts items)
    (ht : ∀ t ∈ ts, t.Proper) : ∀ s ∈ items, s.Proper := by
  induction h with
  | close => simp
  | last hs =>
    intro s hm
    rw [List.mem_singleton.mp hm]
    exact scalar_proper (ht _ List.mem_cons_self) hs
  | more hs _ ih =>
    intro s hm
    rcases List.mem_cons.mp hm with rfl | hm
    · exact scalar_proper (ht _ List.mem_cons_self) hs
    · exact ih (fun t hm => ht t (List.mem_cons_of_mem _ (List.mem_cons_of_mem _ hm))) s hm

/-- What is assigned to a property is as proper as its tokens, and only arrays are appended. -/
theorem assignment_proper {ts : List Token} {value : Value} {append : Bool}
    (h : Assignment ts value append) (ht : ∀ t ∈ ts, t.Proper) :
    value.Proper ∧ (append = true → value.isArray = true) := by
  cases h with
  | scalar hs =>
    have hvalue := scalar_proper (ht _ (List.mem_cons_of_mem _ List.mem_cons_self)) hs
    exact ⟨hvalue, fun h => absurd h Bool.false_ne_true⟩
  | array hi =>
    refine ⟨items_proper hi fun t hm => ht t ?_, fun _ => rfl⟩
    simp [hm]

/-- A property is as proper as its name and the tokens behind it. -/
theorem property_proper {name : String} {position : Position} {p : Property} (hn : IsName name)
    (hl : ∀ l ∈ ls, l.token.Proper) (h : readProperty stop name position ls = .ok (p, rest)) :
    p.Proper ∧ ∀ l ∈ rest, l.token.Proper := by
  obtain ⟨rfl, front, ha, rfl⟩ := assignment_of_readProperty h
  have ht : ∀ t ∈ tokensOf front, t.Proper := by
    intro t ht
    obtain ⟨l, hm, rfl⟩ := List.mem_map.mp ht
    exact hl l (List.mem_append_left rest hm)
  obtain ⟨hvalue, happend⟩ := assignment_proper ha ht
  exact ⟨⟨hn, hvalue, happend⟩, fun l hm => hl l (List.mem_append_right front hm)⟩

namespace Draft

variable {draft next : Draft}

theorem proper_declare {d : Declaration} (h : draft.Proper) (hd : d.Proper) :
    (draft.declare d).Proper := by
  rw [declare]
  split
  · exact ⟨h.pending, Declaration.proper_fold h.forest hd⟩
  · rename_i o os ho
    obtain ⟨hfirst, hothers⟩ := h.innermost ho
    refine ⟨List.forall_mem_cons.mpr ⟨?_, hothers⟩, h.forest⟩
    exact { hfirst with children := Declaration.proper_fold hfirst.children hd }

/-- A draft stays proper by a class that is opened or announced. -/
theorem proper_start {head : Head} {front : List Lexeme} (position : Position) (h : draft.Proper)
    (hh : Heads front head) (hl : ∀ l ∈ front, l.token.Proper) :
    (draft.start position head).Proper := by
  cases hh with
  | @forward name p q hn =>
    have hword : IsWord name := hl _ List.mem_cons_self
    exact proper_declare h (.forward ⟨hword, hn⟩)
  | @plain name p q hn =>
    have hword : IsWord name := hl _ List.mem_cons_self
    refine ⟨List.forall_mem_cons.mpr ⟨?_, h.pending⟩, h.forest⟩
    exact ⟨⟨hword, hn⟩, by simp, by simp, List.nodup_nil, Forest.proper_nil⟩
  | @derived name base p q r s hn hb =>
    have hword : IsWord name := hl _ List.mem_cons_self
    have hbase : IsWord base := hl ⟨.word base, r⟩ (by simp)
    refine ⟨List.forall_mem_cons.mpr ⟨?_, h.pending⟩, h.forest⟩
    refine ⟨⟨hword, hn⟩, ?_, by simp, List.nodup_nil, Forest.proper_nil⟩
    intro b hm
    rw [← Option.mem_some.mp hm]
    exact ⟨hbase, hb⟩

/-- A statement keeps a draft proper and leaves tokens that are proper, too. -/
theorem proper_statement {l : Lexeme} (h : draft.Proper) (hl : l.token.Proper)
    (hls : ∀ l ∈ ls, l.token.Proper) (hs : statement stop draft l ls = .ok (next, rest)) :
    next.Proper ∧ ∀ l ∈ rest, l.token.Proper := by
  rw [statement] at hs
  split at hs
  · rename_i word hw
    split_ifs at hs with hk
    · -- the keyword starts a class
      obtain ⟨⟨head, ls₁⟩, hh, hs⟩ := bind_eq_ok.mp hs
      obtain ⟨rfl, rfl⟩ := Prod.mk.inj (pure_eq_ok.mp hs)
      obtain ⟨front, hf, rfl⟩ := readHead_eq_ok.mp hh
      refine ⟨proper_start _ h hf fun l hm => hls l (List.mem_append_left _ hm), ?_⟩
      exact fun l hm => hls l (List.mem_append_right front hm)
    · split at hs
      · simp at hs
      · -- another word is the name of a property of the innermost open class
        rename_i o os ho
        obtain ⟨⟨p, ls₁⟩, hp, hs⟩ := bind_eq_ok.mp hs
        obtain ⟨rfl, rfl⟩ := Prod.mk.inj (pure_eq_ok.mp hs)
        rw [hw] at hl
        obtain ⟨hproper, hrest⟩ := property_proper ⟨hl, hk⟩ hls hp
        obtain ⟨hfirst, hothers⟩ := h.innermost ho
        obtain ⟨hall, hkeys⟩ := Property.proper_fold hfirst.properties hfirst.keys hproper
        refine ⟨⟨List.forall_mem_cons.mpr ⟨?_, hothers⟩, h.forest⟩, hrest⟩
        exact { hfirst with properties := hall, keys := hkeys }
  · split at hs
    · simp at hs
    · -- a closing brace turns the innermost open class into a declaration
      rename_i o os ho
      obtain ⟨ls₁, hc, hs⟩ := bind_eq_ok.mp hs
      obtain ⟨rfl, rfl⟩ := Prod.mk.inj (pure_eq_ok.mp hs)
      obtain ⟨hfirst, hothers⟩ := h.innermost ho
      have hclosed : o.declaration.Proper := .body hfirst.name hfirst.base hfirst.properties
        hfirst.keys hfirst.children.all hfirst.children.keys
      refine ⟨proper_declare ⟨hothers, h.forest⟩ hclosed, ?_⟩
      rcases readClassEnd_eq_ok.mp hc with ⟨_, rfl⟩ | ⟨p, rfl⟩
      · simp
      · exact fun l hm => hls l (List.mem_cons_of_mem _ hm)
  · split at hs <;> simp at hs

theorem read_nil : read stop draft [] = draft.finish := by
  rw [read.eq_def]

theorem read_of_statement {l : Lexeme} (h : statement stop draft l ls = .ok (next, rest)) :
    read stop draft (l :: ls) = read stop next rest := by
  rw [read.eq_def]
  simp only
  split <;> simp_all

theorem statement_of_read {l : Lexeme} {forest : Forest}
    (h : read stop draft (l :: ls) = .ok forest) : ∃ next rest,
      statement stop draft l ls = .ok (next, rest) ∧ read stop next rest = .ok forest := by
  rw [read.eq_def] at h
  simp only at h
  split at h
  · simp at h
  · rename_i next rest hs
    exact ⟨next, rest, hs, h⟩

/-- What is read to the end from proper tokens is a proper forest. -/
theorem proper_read {forest : Forest} (h : draft.Proper) (hls : ∀ l ∈ ls, l.token.Proper)
    (hr : read stop draft ls = .ok forest) : Forest.Proper forest := by
  -- on the number of lexemes left, of which a statement takes one at least
  induction hn : ls.length using Nat.strong_induction_on generalizing draft ls with
  | _ n ih =>
    cases ls with
    | nil =>
      rw [read_nil, finish] at hr
      split at hr
      · rw [← Except.ok.inj hr]
        exact h.forest
      · simp at hr
    | cons l ls =>
      obtain ⟨next, rest, hs, hr⟩ := statement_of_read hr
      obtain ⟨hl, hls⟩ := List.forall_mem_cons.mp hls
      obtain ⟨hnext, hrest⟩ := proper_statement h hl hls hs
      have hshort : rest.length < n := by
        have := length_of_statement hs
        rw [← hn, List.length_cons]
        omega
      exact ih _ hshort hnext hrest hr rfl

end Draft

/-- Every forest that a text is parsed to is proper. -/
theorem proper_of_parse {text : String} {forest : Forest} (h : parse text = .ok forest) :
    Forest.Proper forest := by
  obtain ⟨lexemes, hl, hr⟩ := bind_eq_ok.mp h
  have hempty : Draft.empty.Proper := ⟨by simp [Draft.empty], Forest.proper_nil⟩
  exact Draft.proper_read hempty (proper_of_lexFrom hl) hr

end Fragment

end Overlay
