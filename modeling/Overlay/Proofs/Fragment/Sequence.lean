import Overlay.Proofs.Fragment.Grammar
import Overlay.Proofs.Token.Cut

namespace Overlay.Fragment
open Attempt (bind_eq_ok pure_eq_ok)
open Text (Position)

/-- An announced class, the head of a class body, a property of the class that is open, or the end
of this class. -/
inductive Statement where
  | announce (name : String)
  | enter (name : String) (base : Option String)
  | assign (name : String) (value : Value) (append : Bool)
  | leave
  deriving DecidableEq, Repr

/-- The statements that tokens consist of. Behind the last brace the semicolon may be missing. -/
inductive Consists : List Token → List Statement → Prop
  | nil : Consists [] []
  | announce {name : String} {ts : List Token} {ss : List Statement} (hn : name ≠ classKeyword)
      (h : Consists ts ss) :
      Consists (.word classKeyword :: .word name :: .semicolon :: ts) (.announce name :: ss)
  | enter {name : String} {ts : List Token} {ss : List Statement} (hn : name ≠ classKeyword)
      (h : Consists ts ss) :
      Consists (.word classKeyword :: .word name :: .openBrace :: ts) (.enter name none :: ss)
  | derive {name base : String} {ts : List Token} {ss : List Statement} (hn : name ≠ classKeyword)
      (hb : base ≠ classKeyword) (h : Consists ts ss) :
      Consists (.word classKeyword :: .word name :: .colon :: .word base :: .openBrace :: ts)
        (.enter name (some base) :: ss)
  | assign {name : String} {value : Value} {append : Bool} {us ts : List Token}
      {ss : List Statement} (hn : name ≠ classKeyword) (ha : Assignment us value append)
      (h : Consists ts ss) :
      Consists (.word name :: (us ++ ts)) (.assign name value append :: ss)
  | leave {ts : List Token} {ss : List Statement} (h : Consists ts ss) :
      Consists (.closeBrace :: .semicolon :: ts) (.leave :: ss)
  | last : Consists [.closeBrace] [.leave]

/-- The text can be cut into tokens that consist of these statements. -/
def Says (text : String) (ss : List Statement) : Prop :=
  ∃ lexemes, lex text = .ok lexemes ∧ Consists (tokensOf lexemes.list) ss

/-- The text has no tokens, or the last of them is a semicolon. -/
def Closed (text : String) : Prop :=
  ∃ lexemes, lex text = .ok lexemes ∧ ∀ t ∈ (tokensOf lexemes.list).getLast?, t = .semicolon

variable {ts us : List Token} {ss ss' : List Statement}

theorem Consists.eq_nil (h : Consists [] ss) : ss = [] := by
  cases h
  rfl

/-- What is assigned to a property can be told from the tokens in one way only. -/
theorem Assignment.unique {value value' : Value} {append append' : Bool} {rest rest' : List Token}
    (h : Assignment ts value append) (h' : Assignment us value' append')
    (he : ts ++ rest = us ++ rest') : value = value' ∧ append = append' ∧ rest = rest' := by
  -- the reader decides, wherever the tokens stand
  have hread {ts : List Token} {value : Value} {append : Bool} (h : Assignment ts value append)
      (rest : List Token) :
      readProperty .start "" .start ((ts ++ rest).map fun t => ⟨t, .start⟩) =
        .ok (⟨"", value, append, .start⟩, rest.map fun t => ⟨t, .start⟩) := by
    rw [List.map_append]
    exact readProperty_of_assignment h (tokensOf_map .start ts) "" .start
  have hsame := hread h rest
  rw [he, hread h' rest'] at hsame
  simp only [Except.ok.injEq, Prod.mk.injEq, Property.mk.injEq, true_and, and_true] at hsame
  obtain ⟨⟨hvalue, happend⟩, hrest⟩ := hsame
  refine ⟨hvalue.symm, happend.symm, ?_⟩
  rw [← tokensOf_map .start rest, ← tokensOf_map .start rest', hrest]

/-- The three ways in which a statement with the keyword goes on. -/
theorem Consists.of_class (h : Consists (.word classKeyword :: ts) ss) :
    (∃ name us ss', ts = .word name :: .semicolon :: us ∧ ss = .announce name :: ss' ∧
      Consists us ss') ∨
    (∃ name us ss', ts = .word name :: .openBrace :: us ∧ ss = .enter name none :: ss' ∧
      Consists us ss') ∨
    ∃ name base us ss', ts = .word name :: .colon :: .word base :: .openBrace :: us ∧
      ss = .enter name (some base) :: ss' ∧ Consists us ss' := by
  generalize hts : Token.word classKeyword :: ts = all at h
  cases h with
  | nil => simp at hts
  | announce _ h => exact .inl ⟨_, _, _, (List.cons.inj hts).2, rfl, h⟩
  | enter _ h => exact .inr (.inl ⟨_, _, _, (List.cons.inj hts).2, rfl, h⟩)
  | derive _ _ h => exact .inr (.inr ⟨_, _, _, _, (List.cons.inj hts).2, rfl, h⟩)
  | assign hn => exact absurd (Token.word.inj (List.cons.inj hts).1).symm hn
  | leave => simp at hts
  | last => simp at hts

/-- Another word is the name of a property. -/
theorem Consists.of_name {name : String} (hn : name ≠ classKeyword)
    (h : Consists (.word name :: ts) ss) : ∃ us rest value append ss',
      Assignment us value append ∧ ts = us ++ rest ∧ ss = .assign name value append :: ss' ∧
        Consists rest ss' := by
  generalize hts : Token.word name :: ts = all at h
  cases h with
  | nil => simp at hts
  | announce => exact absurd (Token.word.inj (List.cons.inj hts).1) hn
  | enter => exact absurd (Token.word.inj (List.cons.inj hts).1) hn
  | derive => exact absurd (Token.word.inj (List.cons.inj hts).1) hn
  | assign _ ha h =>
    obtain ⟨hname, hrest⟩ := List.cons.inj hts
    obtain rfl := Token.word.inj hname
    exact ⟨_, _, _, _, _, ha, hrest, rfl, h⟩
  | leave => simp at hts
  | last => simp at hts

/-- Tokens consist of one sequence of statements at most. -/
theorem Consists.unique (h : Consists ts ss) (h' : Consists ts ss') : ss = ss' := by
  induction h generalizing ss' with
  | nil => exact h'.eq_nil.symm
  | announce hn _ ih =>
    -- what stands behind the name tells which kind of statement it is
    rcases h'.of_class with ⟨_, _, _, ht, rfl, h'⟩ | ⟨_, _, _, ht, _⟩ | ⟨_, _, _, _, ht, _⟩
    · simp only [List.cons.injEq, Token.word.injEq, true_and] at ht
      obtain ⟨rfl, rfl⟩ := ht
      rw [ih h']
    · simp at ht
    · simp at ht
  | enter hn _ ih =>
    rcases h'.of_class with ⟨_, _, _, ht, _⟩ | ⟨_, _, _, ht, rfl, h'⟩ | ⟨_, _, _, _, ht, _⟩
    · simp at ht
    · simp only [List.cons.injEq, Token.word.injEq, true_and] at ht
      obtain ⟨rfl, rfl⟩ := ht
      rw [ih h']
    · simp at ht
  | derive hn hb _ ih =>
    rcases h'.of_class with ⟨_, _, _, ht, _⟩ | ⟨_, _, _, ht, _⟩ | ⟨_, _, _, _, ht, rfl, h'⟩
    · simp at ht
    · simp at ht
    · simp only [List.cons.injEq, Token.word.injEq, true_and] at ht
      obtain ⟨rfl, rfl, rfl⟩ := ht
      rw [ih h']
  | assign hn ha _ ih =>
    obtain ⟨_, _, _, _, _, ha', ht, rfl, h'⟩ := h'.of_name hn
    obtain ⟨rfl, rfl, rfl⟩ := ha.unique ha' ht
    rw [ih h']
  | leave _ ih =>
    cases h' with
    | leave h' => rw [ih h']
  | last =>
    cases h'
    rfl

/-- Behind tokens that are at an end others can follow. -/
theorem Consists.append (h : Consists ts ss) (he : ∀ t ∈ ts.getLast?, t = .semicolon)
    (h' : Consists us ss') : Consists (ts ++ us) (ss ++ ss') := by
  induction h with
  | nil => exact h'
  | announce hn _ ih =>
    refine .announce hn (ih fun t ht => he t ?_)
    exact List.mem_getLast?_cons (List.mem_getLast?_cons (List.mem_getLast?_cons ht))
  | enter hn _ ih =>
    refine .enter hn (ih fun t ht => he t ?_)
    exact List.mem_getLast?_cons (List.mem_getLast?_cons (List.mem_getLast?_cons ht))
  | derive hn hb _ ih =>
    refine .derive hn hb (ih fun t ht => he t ?_)
    exact List.mem_getLast?_cons (List.mem_getLast?_cons (List.mem_getLast?_cons
      (List.mem_getLast?_cons (List.mem_getLast?_cons ht))))
  | assign hn ha _ ih =>
    rw [List.cons_append, List.append_assoc]
    refine .assign hn ha (ih fun t ht => he t ?_)
    exact List.mem_getLast?_cons (List.mem_getLast?_append_of_mem_getLast? ht)
  | leave _ ih =>
    exact .leave (ih fun t ht => he t (List.mem_getLast?_cons (List.mem_getLast?_cons ht)))
  | last => exact absurd (he .closeBrace rfl) (by simp)

/-- Fragments in a row are a fragment if the first one ends with a semicolon. -/
theorem derives_append (h : Derives .fragment ts) (he : ∀ t ∈ ts.getLast?, t = .semicolon)
    (h' : Derives .fragment us) : Derives .fragment (ts ++ us) := by
  generalize hp : Phrase.fragment = phrase at h
  induction h with
  | fragmentNil => exact h'
  | fragmentLast hb =>
    -- a class that lacks its semicolon ends with a brace
    cases hb with
    | block =>
      refine absurd (he .closeBrace (List.mem_getLast?_cons (List.mem_getLast?_cons ?_))) (by simp)
      apply List.mem_getLast?_append_of_mem_getLast?
      exact List.mem_getLast?_cons (List.mem_getLast?_append_of_mem_getLast? rfl)
  | @fragmentMore ts rest hd _ _ ih =>
    rw [List.append_assoc]
    refine .fragmentMore hd (ih (fun t ht => he t ?_) hp)
    exact List.mem_getLast?_append_of_mem_getLast? ht
  | _ => simp at hp

theorem consists_of_head {front rest : List Lexeme} {head : Head} (hh : Heads front head)
    (hr : Consists (tokensOf rest) ss) : ∃ s,
      Consists (.word classKeyword :: tokensOf (front ++ rest)) (s :: ss) := by
  cases hh with
  | forward hn => exact ⟨_, .announce hn hr⟩
  | plain hn => exact ⟨_, .enter hn hr⟩
  | derived hn hb => exact ⟨_, .derive hn hb hr⟩

theorem consists_of_statement {stop : Position} {draft next : Draft} {l : Lexeme}
    {ls rest : List Lexeme} (hs : draft.statement stop l ls = .ok (next, rest))
    (hr : Consists (tokensOf rest) ss) : ∃ s, Consists (tokensOf (l :: ls)) (s :: ss) := by
  rw [Draft.statement] at hs
  rw [tokensOf, List.map_cons]
  split at hs
  · rename_i word hw
    rw [hw]
    split_ifs at hs with hk
    · obtain ⟨⟨head, ls₁⟩, hh, hs⟩ := bind_eq_ok.mp hs
      obtain ⟨rfl, rfl⟩ := Prod.mk.inj (pure_eq_ok.mp hs)
      obtain ⟨front, hf, rfl⟩ := readHead_eq_ok.mp hh
      rw [hk]
      exact consists_of_head hf hr
    · split at hs
      · simp at hs
      · obtain ⟨⟨p, ls₁⟩, hp, hs⟩ := bind_eq_ok.mp hs
        obtain ⟨rfl, rfl⟩ := Prod.mk.inj (pure_eq_ok.mp hs)
        obtain ⟨-, front, ha, rfl⟩ := assignment_of_readProperty hp
        rw [List.map_append]
        exact ⟨_, .assign hk ha hr⟩
  · rename_i hc
    rw [hc]
    split at hs
    · simp at hs
    · obtain ⟨ls₁, he, hs⟩ := bind_eq_ok.mp hs
      obtain ⟨rfl, rfl⟩ := Prod.mk.inj (pure_eq_ok.mp hs)
      -- a class ends with a semicolon or with the text
      rcases readClassEnd_eq_ok.mp he with ⟨rfl, rfl⟩ | ⟨p, rfl⟩
      · rw [hr.eq_nil]
        exact ⟨_, .last⟩
      · exact ⟨_, .leave hr⟩
  · split at hs <;> simp at hs

/-- Tokens that are read to the end consist of statements. -/
theorem consists_of_read {stop : Position} {draft : Draft} {ls : List Lexeme} {forest : Forest}
    (h : draft.read stop ls = .ok forest) : ∃ ss, Consists (tokensOf ls) ss := by
  -- on the number of lexemes left, of which a statement takes one at least
  induction hn : ls.length using Nat.strong_induction_on generalizing draft ls with
  | _ n ih =>
    cases ls with
    | nil => exact ⟨[], .nil⟩
    | cons l ls =>
      obtain ⟨next, rest, hs, hr⟩ := Draft.statement_of_read h
      have hshort : rest.length < n := by
        have := Draft.length_of_statement hs
        rw [← hn, List.length_cons]
        omega
      obtain ⟨ss, hss⟩ := ih _ hshort hr rfl
      obtain ⟨s, hs⟩ := consists_of_statement hs hss
      exact ⟨s :: ss, hs⟩

/-- A text that parses says something, and nothing else. -/
theorem says_of_parse {text : String} {forest : Forest} (h : parse text = .ok forest) :
    ∃ ss, Says text ss ∧ ∀ ss', Says text ss' → ss' = ss := by
  obtain ⟨lexemes, hl, hr⟩ := bind_eq_ok.mp h
  obtain ⟨ss, hs⟩ := consists_of_read hr
  refine ⟨ss, ⟨lexemes, hl, hs⟩, ?_⟩
  rintro ss' ⟨lexemes', hl', hs'⟩
  obtain rfl := Except.ok.inj (hl.symm.trans hl')
  exact hs'.unique hs

/-- Texts on lines of their own have the tokens of the one and then those of the other. -/
theorem lex_lines {first second : String} {ls₁ ls₂ : Lexemes} (h₁ : lex first = .ok ls₁)
    (h₂ : lex second = .ok ls₂) : ∃ ls, lex (first ++ "\n" ++ second) = .ok ls ∧
      tokensOf ls.list = tokensOf ls₁.list ++ tokensOf ls₂.list := by
  have hwrites := (passes_of_lexFrom h₁).writes rfl
  obtain ⟨ls, hl, ht⟩ := hwrites _ _ ((passes_of_lexFrom h₂).lexes rfl) .start
  refine ⟨ls, ?_, ht⟩
  rw [lex, String.toList_append, String.toList_append]
  exact hl

/-- A closed text that parses can be followed by another one that parses. -/
theorem exists_parse_lines {first second : String} {f g : Forest} (hf : parse first = .ok f)
    (hg : parse second = .ok g) (hc : Closed first) :
    ∃ forest, parse (first ++ "\n" ++ second) = .ok forest := by
  obtain ⟨ls₁, h₁, hr₁⟩ := bind_eq_ok.mp hf
  obtain ⟨ls₂, h₂, hr₂⟩ := bind_eq_ok.mp hg
  obtain ⟨ls₁', h₁', hend⟩ := hc
  obtain rfl := Except.ok.inj (h₁.symm.trans h₁')
  obtain ⟨ls, hl, ht⟩ := lex_lines h₁ h₂
  have hd : Derives .fragment (tokensOf ls.list) :=
    ht ▸ derives_append (Draft.derives_of_read hr₁) hend (Draft.derives_of_read hr₂)
  obtain ⟨forest, hr⟩ := readable_of_derives hd ls.stop ls.list [] rfl
  exact ⟨forest, bind_eq_ok.mpr ⟨ls, hl, hr⟩⟩

theorem says_lines {first second : String} (h₁ : Says first ss) (h₂ : Says second ss')
    (hc : Closed first) : Says (first ++ "\n" ++ second) (ss ++ ss') := by
  obtain ⟨ls₁, h₁, hs₁⟩ := h₁
  obtain ⟨ls₂, h₂, hs₂⟩ := h₂
  obtain ⟨ls₁', h₁', hend⟩ := hc
  obtain rfl := Except.ok.inj (h₁.symm.trans h₁')
  obtain ⟨ls, hl, ht⟩ := lex_lines h₁ h₂
  exact ⟨ls, hl, ht ▸ hs₁.append hend hs₂⟩

end Overlay.Fragment
