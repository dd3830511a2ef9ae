import Overlay.Proofs.Fragment

/-! The grammar as a derivation relation, and the parser as its decision. Reading keeps a stack of
open classes, so what it may still read depends on how many there are: `Remainder` says it for a
given number, and every statement goes from one remainder to the next. -/
namespace Overlay.Fragment
open Attempt (bind_eq_ok pure_eq_ok)
open Text (Position)

/-- What the grammar has a rule for. A block is a class with its body up to the closing brace. -/
inductive Phrase where
  | fragment
  | declaration
  | block
  | base
  | members
  | property
  | array
  | elements
  | scalar

/-- The tokens that a phrase may consist of. Only the last class of a fragment may lack its
semicolon, and only if it has a body. -/
inductive Derives : Phrase → List Token → Prop
  -- fragment := declaration* [ block ]
  | fragmentNil : Derives .fragment []
  | fragmentLast {ts : List Token} (hb : Derives .block ts) : Derives .fragment ts
  | fragmentMore {ts us : List Token} (hd : Derives .declaration ts)
      (hf : Derives .fragment us) : Derives .fragment (ts ++ us)
  -- declaration := "class" NAME ";" | block ";"
  | forward {name : String} (hn : name ≠ classKeyword) :
      Derives .declaration [.word classKeyword, .word name, .semicolon]
  | closed {ts : List Token} (hb : Derives .block ts) : Derives .declaration (ts ++ [.semicolon])
  -- block := "class" NAME base open members close
  | block {name : String} {ts us : List Token} (hn : name ≠ classKeyword) (hb : Derives .base ts)
      (hm : Derives .members us) : Derives .block
        (.word classKeyword :: .word name :: (ts ++ .openBrace :: (us ++ [.closeBrace])))
  -- base := [ ":" NAME ]
  | baseNone : Derives .base []
  | baseName {name : String} (hn : name ≠ classKeyword) : Derives .base [.colon, .word name]
  -- members := ( declaration | property )*
  | membersNil : Derives .members []
  | membersClass {ts us : List Token} (hd : Derives .declaration ts) (hm : Derives .members us) :
      Derives .members (ts ++ us)
  | membersProperty {ts us : List Token} (hp : Derives .property ts) (hm : Derives .members us) :
      Derives .members (ts ++ us)
  -- property := NAME "=" scalar ";" | NAME "[" "]" ( "=" | "+=" ) array ";"
  | propertyScalar {name : String} {ts : List Token} (hn : name ≠ classKeyword)
      (hs : Derives .scalar ts) :
      Derives .property (.word name :: .assign :: (ts ++ [.semicolon]))
  | propertyArray {name : String} {m : Token} {ts : List Token} (hn : name ≠ classKeyword)
      (hm : m = .assign ∨ m = .append) (ha : Derives .array ts) : Derives .property
        (.word name :: .openBracket :: .closeBracket :: m :: (ts ++ [.semicolon]))
  -- array := open [ elements [ "," ] ] close
  | arrayEmpty : Derives .array [.openBrace, .closeBrace]
  | arrayFilled {ts : List Token} (he : Derives .elements ts) :
      Derives .array (.openBrace :: (ts ++ [.closeBrace]))
  | arrayComma {ts : List Token} (he : Derives .elements ts) :
      Derives .array (.openBrace :: (ts ++ [.comma, .closeBrace]))
  -- elements := scalar ( "," scalar )*
  | elementsLast {ts : List Token} (hs : Derives .scalar ts) : Derives .elements ts
  | elementsMore {ts us : List Token} (hs : Derives .scalar ts) (he : Derives .elements us) :
      Derives .elements (ts ++ .comma :: us)
  -- scalar := NUMBER | TEXT | "true" | "false"
  | number (literal : String) : Derives .scalar [.number literal]
  | text (value : String) : Derives .scalar [.text value]
  | yes : Derives .scalar [.word "true"]
  | no : Derives .scalar [.word "false"]

/-! What is read can be derived. -/

theorem derives_scalar {t : Token} {s : Scalar} (h : scalar? t = some s) :
    Derives .scalar [t] := by
  cases t with
  | number literal => exact .number literal
  | text value => exact .text value
  | word name =>
    rw [scalar?] at h
    split_ifs at h with htrue hfalse
    · rw [htrue]
      exact .yes
    · rw [hfalse]
      exact .no
  | _ => simp [scalar?] at h

/-- The elements of an array end with its closing brace, and possibly with a comma before. -/
theorem derives_items {ts : List Token} {items : List Scalar} (h : Items ts items) :
    ts = [.closeBrace] ∨ ∃ us, Derives .elements us ∧
      (ts = us ++ [.closeBrace] ∨ ts = us ++ [.comma, .closeBrace]) := by
  induction h with
  | close => exact Or.inl rfl
  | @last t s hs => exact Or.inr ⟨[t], .elementsLast (derives_scalar hs), Or.inl rfl⟩
  | @more t s ts items hs _ ih =>
    have ht := derives_scalar hs
    rcases ih with hts | ⟨us, hu, hts | hts⟩
    · rw [hts]
      exact Or.inr ⟨[t], .elementsLast ht, Or.inr rfl⟩
    · rw [hts]
      exact Or.inr ⟨t :: .comma :: us, .elementsMore ht hu, Or.inl rfl⟩
    · rw [hts]
      exact Or.inr ⟨t :: .comma :: us, .elementsMore ht hu, Or.inr rfl⟩

/-- The elements of an array and its braces derive the array. -/
theorem derives_array {ts : List Token} {items : List Scalar} (h : Items ts items) :
    Derives .array (.openBrace :: ts) := by
  rcases derives_items h with hts | ⟨us, hu, hts | hts⟩
  · rw [hts]
    exact .arrayEmpty
  · rw [hts]
    exact .arrayFilled hu
  · rw [hts]
    exact .arrayComma hu

theorem marker_cases (append : Bool) : marker append = .assign ∨ marker append = .append := by
  cases append with
  | false => exact Or.inl rfl
  | true => exact Or.inr rfl

/-- A name with what is assigned to it derives a property. -/
theorem derives_property {name : String} {ts : List Token} {value : Value} {append : Bool}
    (hn : name ≠ classKeyword) (h : Assignment ts value append) :
    Derives .property (.word name :: ts) := by
  cases h with
  | scalar hs => exact .propertyScalar hn (derives_scalar hs)
  | array hi => exact .propertyArray hn (marker_cases append) (derives_array hi)

/-- What may be left of a fragment when some classes are open: the members of the innermost one,
what ends it, and then what may be left without it. -/
inductive Remainder : Nat → List Token → Prop
  | outermost {ts : List Token} (hf : Derives .fragment ts) : Remainder 0 ts
  | inside {n : Nat} {ts us : List Token} (hm : Derives .members ts) (hr : Remainder n us) :
      Remainder (n + 1) (ts ++ .closeBrace :: .semicolon :: us)
  | last {ts : List Token} (hm : Derives .members ts) : Remainder 1 (ts ++ [.closeBrace])

namespace Remainder

variable {n : Nat} {ts us : List Token}

theorem declaration (hd : Derives .declaration us) (h : Remainder n ts) :
    Remainder n (us ++ ts) := by
  cases h with
  | outermost hf => exact .outermost (.fragmentMore hd hf)
  | inside hm hr =>
    rw [← List.append_assoc]
    exact .inside (.membersClass hd hm) hr
  | last hm =>
    rw [← List.append_assoc]
    exact .last (.membersClass hd hm)

/-- A property in front of what may be left in an open class. -/
theorem property (hp : Derives .property us) (h : Remainder (n + 1) ts) :
    Remainder (n + 1) (us ++ ts) := by
  cases h with
  | inside hm hr =>
    rw [← List.append_assoc]
    exact .inside (.membersProperty hp hm) hr
  | last hm =>
    rw [← List.append_assoc]
    exact .last (.membersProperty hp hm)

/-- The head of a class adds an open class to those that are open before it. -/
theorem opening {name : String} (hn : name ≠ classKeyword) (hb : Derives .base us)
    (h : Remainder (n + 1) ts) :
    Remainder n (.word classKeyword :: .word name :: (us ++ .openBrace :: ts)) := by
  cases h with
  | @inside n ms more hm hr =>
    have hd := Remainder.declaration (.closed (.block hn hb hm)) hr
    simpa using hd
  | last hm => exact .outermost (.fragmentLast (.block hn hb hm))

/-- At the end of a fragment no class may be open. -/
theorem eq_zero_of_nil (h : Remainder n []) : n = 0 := by
  generalize hts : ([] : List Token) = ts at h
  cases h with
  | outermost => rfl
  | inside => simp at hts
  | last => simp at hts

end Remainder

namespace Draft

variable {stop : Position} {draft next : Draft} {l : Lexeme} {ls rest : List Lexeme}

theorem length_declare (draft : Draft) (d : Declaration) :
    (draft.declare d).pending.length = draft.pending.length := by
  rw [declare]
  split
  · rfl
  · rename_i o os ho
    simp [ho]

theorem remainder_of_head {front : List Lexeme} {head : Head} (position : Position)
    (hh : Heads front head)
    (hr : Remainder (draft.start position head).pending.length (tokensOf rest)) :
    Remainder draft.pending.length (.word classKeyword :: tokensOf (front ++ rest)) := by
  cases hh with
  | forward hn =>
    rw [start, length_declare] at hr
    exact hr.declaration (.forward hn)
  | plain hn => exact hr.opening hn .baseNone
  | derived hn hb => exact hr.opening hn (.baseName hb)

/-- Before a statement the lexemes are a remainder if they are one behind it. -/
theorem remainder_of_statement (hs : statement stop draft l ls = .ok (next, rest))
    (hr : Remainder next.pending.length (tokensOf rest)) :
    Remainder draft.pending.length (tokensOf (l :: ls)) := by
  rw [statement] at hs
  rw [tokensOf, List.map_cons]
  -- a statement begins with the keyword, with the name of a property or with a closing brace
  split at hs
  · rename_i word hw
    rw [hw]
    split_ifs at hs with hk
    · obtain ⟨⟨head, ls₁⟩, hh, hs⟩ := bind_eq_ok.mp hs
      obtain ⟨rfl, rfl⟩ := Prod.mk.inj (pure_eq_ok.mp hs)
      obtain ⟨front, hf, rfl⟩ := readHead_eq_ok.mp hh
      rw [hk]
      exact remainder_of_head _ hf hr
    · split at hs
      · simp at hs
      · rename_i o os ho
        obtain ⟨⟨p, ls₁⟩, hp, hs⟩ := bind_eq_ok.mp hs
        obtain ⟨rfl, rfl⟩ := Prod.mk.inj (pure_eq_ok.mp hs)
        obtain ⟨-, front, ha, rfl⟩ := assignment_of_readProperty hp
        have hproperty := Remainder.property (derives_property hk ha) hr
        rw [ho, List.map_append]
        exact hproperty
  · rename_i hc
    rw [hc]
    split at hs
    · simp at hs
    · rename_i o os ho
      obtain ⟨ls₁, he, hs⟩ := bind_eq_ok.mp hs
      obtain ⟨rfl, rfl⟩ := Prod.mk.inj (pure_eq_ok.mp hs)
      rw [length_declare] at hr
      rw [ho, List.length_cons]
      -- without a semicolon this is the end, where the class has to be the only open one
      rcases readClassEnd_eq_ok.mp he with ⟨rfl, rfl⟩ | ⟨p, rfl⟩
      · have hzero : os.length = 0 := hr.eq_zero_of_nil
        rw [hzero]
        exact .last .membersNil
      · exact .inside .membersNil hr
  · split at hs <;> simp at hs

/-- Whatever is read to the end is what may be left while the classes of the draft are open. -/
theorem remainder_of_read {forest : Forest} (h : read stop draft ls = .ok forest) :
    Remainder draft.pending.length (tokensOf ls) := by
  -- on the number of lexemes left, of which a statement takes one at least
  induction hn : ls.length using Nat.strong_induction_on generalizing draft ls with
  | _ n ih =>
    cases ls with
    | nil =>
      rw [read_nil, finish] at h
      split at h
      · rename_i hp
        rw [hp]
        exact .outermost .fragmentNil
      · simp at h
    | cons l ls =>
      obtain ⟨next, rest, hs, hr⟩ := statement_of_read h
      have hshort : rest.length < n := by
        have := length_of_statement hs
        rw [← hn, List.length_cons]
        omega
      exact remainder_of_statement hs (ih _ hshort hr rfl)

/-- What is read from the start is a fragment. -/
theorem derives_of_read {forest : Forest} (h : read stop .empty ls = .ok forest) :
    Derives .fragment (tokensOf ls) := by
  cases remainder_of_read h with
  | outermost hf => exact hf

end Draft

/-! What can be derived is read. -/

/-- What the readers make of the tokens of a phrase, whatever comes behind them and whichever
classes are open. -/
def Readable (stop : Position) : Phrase → List Token → Prop
  | .scalar, ts => ∃ t s, ts = [t] ∧ scalar? t = some s
  | .elements, ts => ∃ items, Items (ts ++ [.closeBrace]) items ∧
      Items (ts ++ [.comma, .closeBrace]) items
  | .array, ts => ∃ us items, ts = .openBrace :: us ∧ Items us items
  | .property, ts => ∃ name us value append, ts = .word name :: us ∧ name ≠ classKeyword ∧
      Assignment us value append
  | .members, ts => ∀ front o os forest, tokensOf front = ts → ∃ o', ∀ rest,
      Draft.read stop ⟨o :: os, forest⟩ (front ++ rest) = Draft.read stop ⟨o' :: os, forest⟩ rest
  | .base, ts => ∀ front name p q, tokensOf front = ts → name ≠ classKeyword →
      ∃ base, Heads (⟨.word name, p⟩ :: (front ++ [⟨.openBrace, q⟩])) (.opening name base q)
  | .block, ts => ∀ front draft, tokensOf front = ts → ∃ d : Declaration,
      Draft.read stop draft front = Draft.read stop (draft.declare d) [] ∧
      ∀ p rest, Draft.read stop draft (front ++ ⟨.semicolon, p⟩ :: rest) =
        Draft.read stop (draft.declare d) rest
  | .declaration, ts => ∀ front draft, tokensOf front = ts → ∃ d : Declaration, ∀ rest,
      Draft.read stop draft (front ++ rest) = Draft.read stop (draft.declare d) rest
  | .fragment, ts => ∀ front forest, tokensOf front = ts → ∃ forest',
      Draft.read stop ⟨[], forest⟩ front = .ok forest'

namespace Readable

variable {stop : Position} {ts us : List Token}

/-- Elements with a comma and more elements behind them. -/
theorem elements_more (hs : Readable stop .scalar ts) (he : Readable stop .elements us) :
    Readable stop .elements (ts ++ .comma :: us) := by
  obtain ⟨t, s, rfl, ht⟩ := hs
  obtain ⟨items, hplain, hcomma⟩ := he
  exact ⟨s :: items, .more ht hplain, .more ht hcomma⟩

theorem elements_last (hs : Readable stop .scalar ts) : Readable stop .elements ts := by
  obtain ⟨t, s, rfl, ht⟩ := hs
  exact ⟨[s], .last ht, .more ht .close⟩

theorem property_scalar {name : String} (hn : name ≠ classKeyword)
    (hs : Readable stop .scalar ts) :
    Readable stop .property (.word name :: .assign :: (ts ++ [.semicolon])) := by
  obtain ⟨t, s, rfl, ht⟩ := hs
  exact ⟨name, _, .scalar s, false, rfl, hn, .scalar ht⟩

/-- A property whose value is an array, with either marker. -/
theorem property_array {name : String} {m : Token} (hn : name ≠ classKeyword)
    (hm : m = .assign ∨ m = .append) (ha : Readable stop .array ts) : Readable stop .property
      (.word name :: .openBracket :: .closeBracket :: m :: (ts ++ [.semicolon])) := by
  obtain ⟨us, items, rfl, hi⟩ := ha
  have hmarker : ∃ append, m = marker append := by
    rcases hm with rfl | rfl
    · exact ⟨false, rfl⟩
    · exact ⟨true, rfl⟩
  obtain ⟨append, rfl⟩ := hmarker
  exact ⟨name, _, .array items, append, rfl, hn, .array hi⟩

/-- A class among the members of another one, in front of further members. -/
theorem members_class (hd : Readable stop .declaration ts) (hm : Readable stop .members us) :
    Readable stop .members (ts ++ us) := by
  intro front o os forest hf
  obtain ⟨first, others, rfl, hfirst, hothers⟩ := List.map_eq_append_iff.mp hf
  obtain ⟨d, hread⟩ := hd first ⟨o :: os, forest⟩ hfirst
  obtain ⟨o', hmore⟩ := hm others { o with children := Declaration.fold o.children d } os forest
    hothers
  refine ⟨o', ?_⟩
  intro rest
  rw [List.append_assoc, hread]
  exact hmore rest

/-- The name of a property and what stands behind it are one statement. -/
theorem read_property {name : String} {value : Value} {append : Bool} {front : List Lexeme}
    (hn : name ≠ classKeyword) (ha : Assignment ts value append) (hf : tokensOf front = ts)
    (o : OpenClass) (os : List OpenClass) (forest : Forest) (p : Position) (rest : List Lexeme) :
    Draft.read stop ⟨o :: os, forest⟩ (⟨.word name, p⟩ :: (front ++ rest)) = Draft.read stop
      ⟨{ o with properties := Property.fold o.properties ⟨name, value, append, p⟩ } :: os, forest⟩
        rest := by
  apply Draft.read_of_statement
  rw [Draft.statement]
  simp only [if_neg hn]
  exact bind_eq_ok.mpr ⟨_, readProperty_of_assignment ha hf name p, rfl⟩

theorem members_property (hp : Readable stop .property ts) (hm : Readable stop .members us) :
    Readable stop .members (ts ++ us) := by
  intro front o os forest hf
  obtain ⟨first, others, rfl, hfirst, hothers⟩ := List.map_eq_append_iff.mp hf
  obtain ⟨name, behind, value, append, rfl, hn, ha⟩ := hp
  obtain ⟨⟨_, position⟩, first, rfl, rfl, hbehind⟩ := List.map_eq_cons_iff.mp hfirst
  obtain ⟨o', hmore⟩ := hm others _ os forest hothers
  refine ⟨o', ?_⟩
  intro rest
  rw [List.append_assoc, List.cons_append, read_property hn ha hbehind]
  exact hmore rest

/-- The keyword and a head are one statement. -/
theorem read_head {head : Head} {front : List Lexeme} (hh : Heads front head) (draft : Draft)
    (p : Position) (rest : List Lexeme) :
    Draft.read stop draft (⟨.word classKeyword, p⟩ :: (front ++ rest)) =
      Draft.read stop (draft.start p head) rest := by
  apply Draft.read_of_statement
  have hread : readHead stop (front ++ rest) = .ok (head, rest) :=
    readHead_eq_ok.mpr ⟨front, hh, rfl⟩
  exact bind_eq_ok.mpr ⟨_, hread, rfl⟩

/-- The closing brace and what ends a class are one statement. -/
theorem read_close {ls rest : List Lexeme} (he : readClassEnd stop ls = .ok rest) (o : OpenClass)
    (draft : Draft) (p : Position) :
    Draft.read stop ⟨o :: draft.pending, draft.forest⟩ (⟨.closeBrace, p⟩ :: ls) =
      Draft.read stop (draft.declare o.declaration) rest := by
  apply Draft.read_of_statement
  exact bind_eq_ok.mpr ⟨_, he, rfl⟩

theorem forward {name : String} (hn : name ≠ classKeyword) :
    Readable stop .declaration [.word classKeyword, .word name, .semicolon] := by
  intro front draft hf
  obtain ⟨⟨_, p₁⟩, ls₁, rfl, rfl, h₁⟩ := List.map_eq_cons_iff.mp hf
  obtain ⟨⟨_, p₂⟩, ls₂, rfl, rfl, h₂⟩ := List.map_eq_cons_iff.mp h₁
  obtain ⟨⟨_, p₃⟩, rfl, rfl⟩ := List.map_eq_singleton_iff.mp h₂
  exact ⟨.forward name p₁, fun rest => read_head (.forward hn) draft p₁ rest⟩

theorem closed (hb : Readable stop .block ts) :
    Readable stop .declaration (ts ++ [.semicolon]) := by
  intro front draft hf
  obtain ⟨first, others, rfl, hfirst, hothers⟩ := List.map_eq_append_iff.mp hf
  obtain ⟨⟨_, p⟩, rfl, rfl⟩ := List.map_eq_singleton_iff.mp hothers
  obtain ⟨d, -, hread⟩ := hb first draft hfirst
  refine ⟨d, ?_⟩
  intro rest
  rw [List.append_assoc]
  exact hread p rest

/-- A class with its body, whose members are read while it is open. -/
theorem block {name : String} (hn : name ≠ classKeyword) (hb : Readable stop .base ts)
    (hm : Readable stop .members us) : Readable stop .block
      (.word classKeyword :: .word name :: (ts ++ .openBrace :: (us ++ [.closeBrace]))) := by
  intro front draft hf
  obtain ⟨⟨_, p₁⟩, ls₁, rfl, rfl, h₁⟩ := List.map_eq_cons_iff.mp hf
  obtain ⟨⟨_, p₂⟩, ls₂, rfl, rfl, h₂⟩ := List.map_eq_cons_iff.mp h₁
  obtain ⟨derived, ls₃, rfl, hderived, h₃⟩ := List.map_eq_append_iff.mp h₂
  obtain ⟨⟨_, p₃⟩, ls₄, rfl, rfl, h₄⟩ := List.map_eq_cons_iff.mp h₃
  obtain ⟨inner, ls₅, rfl, hinner, h₅⟩ := List.map_eq_append_iff.mp h₄
  obtain ⟨⟨_, p₄⟩, rfl, rfl⟩ := List.map_eq_singleton_iff.mp h₅
  obtain ⟨base, hhead⟩ := hb derived name p₂ p₃ hderived hn
  obtain ⟨o, hmembers⟩ := hm inner ⟨name, base, [], [], p₁, p₃⟩ draft.pending draft.forest hinner
  -- up to the closing brace all is read into the class that the head opens
  have hopen (rest : List Lexeme) : Draft.read stop draft (⟨.word classKeyword, p₁⟩ ::
      ⟨.word name, p₂⟩ :: (derived ++ ⟨.openBrace, p₃⟩ :: (inner ++ rest))) =
        Draft.read stop ⟨o :: draft.pending, draft.forest⟩ rest := by
    have h := (read_head hhead draft p₁ (inner ++ rest)).trans (hmembers rest)
    simpa only [List.cons_append, List.append_assoc, List.nil_append] using h
  refine ⟨o.declaration, ?_, ?_⟩
  · rw [hopen]
    exact read_close (readClassEnd_eq_ok.mpr (Or.inl ⟨rfl, rfl⟩)) o draft p₄
  · intro p rest
    have hsemicolon : readClassEnd stop (⟨.semicolon, p⟩ :: rest) = .ok rest :=
      readClassEnd_eq_ok.mpr (Or.inr ⟨p, rfl⟩)
    have h := hopen (⟨.closeBrace, p₄⟩ :: ⟨.semicolon, p⟩ :: rest)
    simp only [List.cons_append, List.append_assoc, List.nil_append]
    exact h.trans (read_close hsemicolon o draft p₄)

theorem base_name {base : String} (hbase : base ≠ classKeyword) :
    Readable stop .base [.colon, .word base] := by
  intro front name p q hf hn
  obtain ⟨⟨_, p₁⟩, ls₁, rfl, rfl, h₁⟩ := List.map_eq_cons_iff.mp hf
  obtain ⟨⟨_, p₂⟩, rfl, rfl⟩ := List.map_eq_singleton_iff.mp h₁
  exact ⟨some base, .derived hn hbase⟩

theorem fragment_more (hd : Readable stop .declaration ts) (hf : Readable stop .fragment us) :
    Readable stop .fragment (ts ++ us) := by
  intro front forest hts
  obtain ⟨first, others, rfl, hfirst, hothers⟩ := List.map_eq_append_iff.mp hts
  obtain ⟨d, hread⟩ := hd first ⟨[], forest⟩ hfirst
  obtain ⟨forest', hmore⟩ := hf others (Declaration.fold forest d) hothers
  exact ⟨forest', (hread others).trans hmore⟩

/-- The last class of a fragment may go without its semicolon. -/
theorem fragment_last (hb : Readable stop .block ts) : Readable stop .fragment ts := by
  intro front forest hf
  obtain ⟨d, hread, -⟩ := hb front ⟨[], forest⟩ hf
  exact ⟨Declaration.fold forest d, hread.trans Draft.read_nil⟩

end Readable

/-- Whatever is derived is read. The induction has one case for each rule. -/
theorem readable_of_derives {phrase : Phrase} {ts : List Token} (h : Derives phrase ts)
    (stop : Position) : Readable stop phrase ts := by
  induction h with
  | fragmentNil =>
    intro front forest hf
    obtain rfl := List.map_eq_nil_iff.mp hf
    exact ⟨forest, Draft.read_nil⟩
  | fragmentLast _ ih => exact ih.fragment_last
  | fragmentMore _ _ ihd ihf => exact ihd.fragment_more ihf
  | forward hn => exact Readable.forward hn
  | closed _ ih => exact ih.closed
  | block hn _ _ ihb ihm => exact Readable.block hn ihb ihm
  | baseNone =>
    intro front name p q hf hn
    obtain rfl := List.map_eq_nil_iff.mp hf
    exact ⟨none, .plain hn⟩
  | baseName hn => exact Readable.base_name hn
  | membersNil =>
    intro front o os forest hf
    obtain rfl := List.map_eq_nil_iff.mp hf
    exact ⟨o, fun rest => rfl⟩
  | membersClass _ _ ihd ihm => exact ihd.members_class ihm
  | membersProperty _ _ ihp ihm => exact ihp.members_property ihm
  | propertyScalar hn _ ih => exact ih.property_scalar hn
  | propertyArray hn hm _ ih => exact ih.property_array hn hm
  | arrayEmpty => exact ⟨_, [], rfl, .close⟩
  | arrayFilled _ ih =>
    obtain ⟨items, hplain, -⟩ := ih
    exact ⟨_, items, rfl, hplain⟩
  | arrayComma _ ih =>
    obtain ⟨items, -, hcomma⟩ := ih
    exact ⟨_, items, rfl, hcomma⟩
  | elementsLast _ ih => exact ih.elements_last
  | elementsMore _ _ ihs ihe => exact ihs.elements_more ihe
  | number literal => exact ⟨_, .number literal, rfl, rfl⟩
  | text value => exact ⟨_, .text value, rfl, rfl⟩
  | yes => exact ⟨_, .flag true, rfl, rfl⟩
  | no => exact ⟨_, .flag false, rfl, rfl⟩

/-- A text parses exactly if it can be cut into tokens and these are derived from the grammar. -/
theorem parse_ok_iff_derives (text : String) : (∃ forest, parse text = .ok forest) ↔
    ∃ lexemes, lex text = .ok lexemes ∧ Derives .fragment (tokensOf lexemes.list) := by
  constructor
  · intro h
    obtain ⟨forest, h⟩ := h
    obtain ⟨lexemes, hl, hr⟩ := bind_eq_ok.mp h
    refine ⟨lexemes, hl, ?_⟩
    cases Draft.remainder_of_read hr with
    | outermost hf => exact hf
  · intro h
    obtain ⟨lexemes, hl, hd⟩ := h
    obtain ⟨forest, hr⟩ := readable_of_derives hd lexemes.stop lexemes.list [] rfl
    exact ⟨forest, bind_eq_ok.mpr ⟨lexemes, hl, hr⟩⟩

end Overlay.Fragment
