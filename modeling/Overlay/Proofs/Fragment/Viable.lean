import Overlay.Proofs.Fragment.Grammar
import Overlay.Proofs.Fragment.Fault
import Overlay.Proofs.Token.Cut

/-! The first fault of a text. Whatever has been read can be completed to a fragment, since the
classes that are open can be closed. So reading stops at the end of the text, or at the first lexeme
that cannot follow those before it, and the tokens in front of the fault always go on to a fragment.
This takes it that the text can be cut into tokens: a fault in its characters is found before, and
is reported even if some token in front of it is at fault already. -/
namespace Overlay.Fragment
open Attempt (bind_eq_ok bind_eq_error map_eq_error pure_eq_ok)
open Text (Position)

/-- Some tokens behind these make them a fragment. -/
def Viable (ts : List Token) : Prop := ∃ more, Derives .fragment (ts ++ more)

theorem Viable.of_append {ts us : List Token} (h : Viable (ts ++ us)) : Viable ts := by
  obtain ⟨more, hd⟩ := h
  rw [List.append_assoc] at hd
  exact ⟨us ++ more, hd⟩

namespace Draft

variable {stop : Position} {draft next : Draft} {l : Lexeme} {ls rest : List Lexeme}
  {e : ParseError}

theorem read_of_error (h : statement stop draft l ls = .error e) :
    read stop draft (l :: ls) = .error e := by
  rw [read.eq_def]
  simp only
  split <;> simp_all

/-- Some lexemes behind these make a fragment of them and of what has been read. -/
def Completes (stop : Position) (draft : Draft) (ls : List Lexeme) : Prop :=
  ∃ more forest, read stop draft (ls ++ more) = .ok forest

/-- A brace and a semicolon for each class that is open. -/
theorem completes_nil (stop : Position) (draft : Draft) : Completes stop draft [] := by
  induction hn : draft.pending.length generalizing draft with
  | zero =>
    refine ⟨[], draft.forest, ?_⟩
    rw [List.append_nil, read_nil, finish, List.length_eq_zero_iff.mp hn]
  | succ n ih =>
    obtain ⟨o, os, ho⟩ := List.exists_cons_of_length_eq_add_one hn
    obtain ⟨pending, forest⟩ := draft
    subst ho
    have hend (rest : List Lexeme) : readClassEnd stop (⟨.semicolon, stop⟩ :: rest) = .ok rest :=
      readClassEnd_eq_ok.mpr (.inr ⟨stop, rfl⟩)
    obtain ⟨more, forest', hr⟩ := ih ((⟨os, forest⟩ : Draft).declare o.declaration) (by
      rw [length_declare]
      exact Nat.succ.inj hn)
    refine ⟨⟨.closeBrace, stop⟩ :: ⟨.semicolon, stop⟩ :: more, forest', ?_⟩
    exact (Readable.read_close (hend more) o ⟨os, forest⟩ stop).trans hr

theorem Completes.of_append {us : List Lexeme} (h : Completes stop draft (ls ++ us)) :
    Completes stop draft ls := by
  obtain ⟨more, forest, hr⟩ := h
  rw [List.append_assoc] at hr
  exact ⟨us ++ more, forest, hr⟩

/-- A statement that is taken whole can be completed: what is open then can be closed. -/
theorem completes_of_takes (h : Takes (statement stop draft l) ls) :
    Completes stop draft (l :: ls) := by
  obtain ⟨next, hs⟩ := h
  obtain ⟨more, forest, hr⟩ := completes_nil stop next
  exact ⟨more, forest, (read_of_statement (hs more)).trans hr⟩

/-- A statement is read as its parts are, unless its first lexeme starts none here. Only what closes
a class need not be behind it at the end of the text. -/
theorem statement_cases (stop : Position) (draft : Draft) (l : Lexeme) (ls : List Lexeme) :
    (∃ e : ParseError, e.reason.atEnd = false ∧ e.position = l.position ∧
      ∀ rest, statement stop draft l rest = .error e) ∨
    Outcome stop (statement stop draft l) ls ∨
    ls = [] ∧ (∃ next, statement stop draft l [] = .ok (next, [])) ∧
      Takes (statement stop draft l) [⟨.semicolon, stop⟩] := by
  obtain ⟨token, position⟩ := l
  obtain ⟨pending, forest⟩ := draft
  cases token with
  | word word =>
    by_cases hk : word = classKeyword
    · subst hk
      exact .inr (.inl (outcome_head.bind fun head ls => .pure _))
    · cases pending with
      | nil => exact .inl ⟨_, rfl, rfl, fun rest => if_neg hk⟩
      | cons o os =>
        -- behind a name the property is read, and the statement fails as it does
        have hs : ∃ next : Property → Draft,
            statement stop ⟨o :: os, forest⟩ ⟨.word word, position⟩ =
              fun ls => readProperty stop word position ls >>= fun read =>
                .ok (next read.1, read.2) :=
          ⟨fun p => ⟨{ o with properties := Property.fold o.properties p } :: os, forest⟩,
            funext fun ls => if_neg hk⟩
        obtain ⟨next, hs⟩ := hs
        rw [hs]
        exact .inr (.inl (outcome_property.bind fun p ls => .pure (next p)))
  | closeBrace =>
    cases pending with
    | nil => exact .inl ⟨_, rfl, rfl, fun _ => rfl⟩
    | cons o os =>
      have hm (p : Position) : Takes (statement stop ⟨o :: os, forest⟩ ⟨.closeBrace, position⟩)
          [⟨.semicolon, p⟩] := ⟨_, fun _ => rfl⟩
      cases ls with
      | nil => exact .inr (.inr ⟨rfl, ⟨_, rfl⟩, hm stop⟩)
      -- what follows the closing brace is a semicolon or a fault
      | cons l ls =>
        obtain ⟨token, p⟩ := l
        cases token with
        | semicolon => exact .inr (.inl (.taken (hm p) ls))
        | _ => exact .inr (.inl (.first (fun _ => rfl) rfl rfl (hm stop)))
  | _ =>
    cases pending with
    | nil => exact .inl ⟨_, rfl, rfl, fun _ => rfl⟩
    | cons o os => exact .inl ⟨_, rfl, rfl, fun _ => rfl⟩

theorem brace_of_declare {d : Declaration} :
    ∀ o ∈ (draft.declare d).pending, ∃ before ∈ draft.pending, before.brace = o.brace := by
  intro o ho
  rw [declare] at ho
  split at ho
  · exact ⟨o, ho, rfl⟩
  · rename_i first others hp
    rw [hp]
    rcases List.mem_cons.mp ho with rfl | ho
    · exact ⟨first, List.mem_cons_self, rfl⟩
    · exact ⟨o, List.mem_cons_of_mem first ho, rfl⟩

/-- The brace of a class that is open was there before, or is among what has been read. -/
theorem brace_of_statement (hs : statement stop draft l ls = .ok (next, rest)) :
    ∀ o ∈ next.pending, (∃ m ∈ ls, m.position = o.brace) ∨
      ∃ before ∈ draft.pending, before.brace = o.brace := by
  rw [statement] at hs
  split at hs
  · split_ifs at hs
    · obtain ⟨⟨head, ls₁⟩, hh, hs⟩ := bind_eq_ok.mp hs
      obtain ⟨rfl, rfl⟩ := Prod.mk.inj (pure_eq_ok.mp hs)
      obtain ⟨front, hf, rfl⟩ := readHead_eq_ok.mp hh
      cases hf with
      | forward hn => exact fun o ho => .inr (brace_of_declare o ho)
      | plain hn =>
        intro o ho
        rcases List.mem_cons.mp ho with rfl | ho
        · exact .inl ⟨_, List.mem_cons_of_mem _ List.mem_cons_self, rfl⟩
        · exact .inr ⟨o, ho, rfl⟩
      | @derived name base p q r s hn hb =>
        intro o ho
        rcases List.mem_cons.mp ho with rfl | ho
        · exact .inl ⟨⟨.openBrace, s⟩, by simp, rfl⟩
        · exact .inr ⟨o, ho, rfl⟩
    · split at hs
      · simp at hs
      · rename_i first others hp
        obtain ⟨⟨p, ls₁⟩, -, hs⟩ := bind_eq_ok.mp hs
        obtain ⟨rfl, rfl⟩ := Prod.mk.inj (pure_eq_ok.mp hs)
        intro o ho
        rw [hp]
        rcases List.mem_cons.mp ho with rfl | ho
        · exact .inr ⟨first, List.mem_cons_self, rfl⟩
        · exact .inr ⟨o, List.mem_cons_of_mem first ho, rfl⟩
  -- the class that is closed is open no more, and the others keep their braces
  · split at hs
    · simp at hs
    · rename_i first others hp
      obtain ⟨ls₁, -, hs⟩ := bind_eq_ok.mp hs
      obtain ⟨rfl, rfl⟩ := Prod.mk.inj (pure_eq_ok.mp hs)
      intro o ho
      obtain ⟨before, hb, hbrace⟩ := brace_of_declare o ho
      rw [hp]
      exact .inr ⟨before, List.mem_cons_of_mem first hb, hbrace⟩
  · split at hs <;> simp at hs

def Marks (stop : Position) (draft : Draft) (ls : List Lexeme) (p : Position) : Prop :=
  p = stop ∨ (∃ m ∈ ls, m.position = p) ∨ ∃ o ∈ draft.pending, o.brace = p

theorem Marks.behind {p : Position} (h : Marks stop next rest p) (hr : rest ⊆ ls)
    (hs : statement stop draft l ls = .ok (next, rest)) : Marks stop draft (l :: ls) p := by
  rcases h with hp | ⟨m, hm, hp⟩ | ⟨o, ho, hp⟩
  · exact .inl hp
  · exact .inr (.inl ⟨m, List.mem_cons_of_mem l (hr hm), hp⟩)
  · rcases brace_of_statement hs o ho with ⟨m, hm, hb⟩ | ⟨before, hbefore, hb⟩
    · exact .inr (.inl ⟨m, List.mem_cons_of_mem l hm, hb.trans hp⟩)
    · exact .inr (.inr ⟨before, hbefore, hb.trans hp⟩)

/-- How reading fails: at the end of the text, where the place of an open brace may be given for it,
or at the first lexeme that cannot follow those before it, whatever is behind. -/
inductive Fails (stop : Position) (draft : Draft) (e : ParseError) : List Lexeme → Prop
  | ended {ls : List Lexeme} (ha : e.reason.atEnd = true) (hc : Completes stop draft ls)
      (hp : Marks stop draft ls e.position) : Fails stop draft e ls
  | stopped {front : List Lexeme} {m : Lexeme} (ha : e.reason.atEnd = false)
      (hc : Completes stop draft front) (hp : e.position = m.position)
      (h : ∀ rest, read stop draft (front ++ m :: rest) = .error e) (rest : List Lexeme) :
      Fails stop draft e (front ++ m :: rest)

/-- Behind a statement reading fails as it does from there on. -/
theorem Fails.behind {front : List Lexeme}
    (hs : ∀ rest, statement stop draft l (front ++ rest) = .ok (next, rest))
    (hf : Fails stop next e ls) : Fails stop draft e (l :: (front ++ ls)) := by
  have hread (rest : List Lexeme) : read stop draft (l :: (front ++ rest)) = read stop next rest :=
    read_of_statement (hs rest)
  have hcompletes {ls : List Lexeme} (h : Completes stop next ls) :
      Completes stop draft (l :: (front ++ ls)) := by
    obtain ⟨more, forest, hr⟩ := h
    refine ⟨more, forest, ?_⟩
    rw [List.cons_append, List.append_assoc, hread]
    exact hr
  cases hf with
  | ended ha hc hp =>
    exact .ended ha (hcompletes hc) (hp.behind (List.subset_append_right front ls) (hs ls))
  | @stopped before m ha hc hp h rest =>
    have h (rest : List Lexeme) :
        read stop draft (l :: (front ++ before) ++ m :: rest) = .error e := by
      rw [List.cons_append, List.append_assoc, hread]
      exact h rest
    have hfails := Fails.stopped ha (hcompletes hc) hp h rest
    rwa [List.cons_append, List.append_assoc] at hfails

/-- When reading fails, the fault is where no continuation can mend the text, or at its end. -/
theorem fails_of_read (h : read stop draft ls = .error e) : Fails stop draft e ls := by
  -- on the number of lexemes left, of which a statement takes one at least
  induction hn : ls.length using Nat.strong_induction_on generalizing draft ls with
  | _ n ih =>
    cases ls with
    | nil =>
      rw [read_nil, finish] at h
      split at h
      · simp at h
      · rename_i o os ho
        obtain rfl := Except.error.inj h
        refine .ended rfl (completes_nil stop draft) (.inr (.inr ⟨o, ?_, rfl⟩))
        rw [ho]
        exact List.mem_cons_self
    | cons l ls =>
      rcases statement_cases stop draft l ls with ⟨e', ha, hp, hs⟩ | hs | ⟨rfl, ⟨next, hs⟩, hm⟩
      · obtain rfl := Except.error.inj ((read_of_error (hs ls)).symm.trans h)
        have hstops (rest : List Lexeme) : read stop draft ([] ++ l :: rest) = .error e' :=
          read_of_error (hs rest)
        exact .stopped ha (completes_nil stop draft) hp hstops ls
      · cases hs with
        | taken hs rest =>
          obtain ⟨next, hs⟩ := hs
          have hshort : rest.length < n := by
            rw [← hn, List.length_cons, List.length_append]
            omega
          rw [read_of_statement (hs rest)] at h
          exact (ih _ hshort h rfl).behind hs
        | ended hs ha hp hm =>
          obtain rfl := Except.error.inj ((read_of_error hs).symm.trans h)
          exact .ended ha (completes_of_takes hm).of_append (.inl hp)
        | @stopped front more m _ hs ha hp hm rest =>
          obtain rfl := Except.error.inj ((read_of_error (hs rest)).symm.trans h)
          rw [← List.cons_append]
          exact .stopped ha (completes_of_takes hm).of_append hp
            (fun rest => read_of_error (hs rest)) rest
      · -- the text ends behind a closing brace, and another class is open
        have hshort : ([] : List Lexeme).length < n := by
          rw [← hn]
          exact Nat.succ_pos _
        rw [read_of_statement hs] at h
        have hfails := ih _ hshort h rfl
        generalize hnil : ([] : List Lexeme) = left at hfails
        cases hfails with
        | ended ha _ hp =>
          subst hnil
          exact .ended ha (completes_of_takes hm).of_append (hp.behind (List.Subset.refl _) hs)
        | stopped => simp at hnil

end Draft

variable {text : String} {e : ParseError}

/-- Lexemes that can be completed from the start are viable. -/
theorem viable_of_completes {stop : Position} {ls : List Lexeme}
    (h : Draft.Completes stop .empty ls) : Viable (tokensOf ls) := by
  obtain ⟨more, forest, hr⟩ := h
  refine ⟨tokensOf more, ?_⟩
  rw [tokensOf, tokensOf, ← List.map_append]
  exact Draft.derives_of_read hr

/-- No lexemes behind a fault make up for it. -/
theorem not_viable_of_read {stop : Position} {front : List Lexeme} {m : Lexeme}
    (h : ∀ rest, Draft.read stop .empty (front ++ m :: rest) = .error e) :
    ¬ Viable (tokensOf (front ++ [m])) := by
  rintro ⟨more, hd⟩
  obtain ⟨behind, hb⟩ : ∃ behind, tokensOf behind = more := ⟨_, tokensOf_map stop more⟩
  rw [← hb, tokensOf, tokensOf, ← List.map_append] at hd
  obtain ⟨forest, hr⟩ := readable_of_derives hd stop _ [] rfl
  rw [List.append_assoc] at hr
  exact absurd ((h behind).symm.trans hr) (by simp)

/-- Tokens go on to a fragment exactly if nothing is wrong with them but their end. -/
theorem viable_iff_of_read (stop : Position) (ls : List Lexeme) : Viable (tokensOf ls) ↔
    ∀ e, Draft.read stop .empty ls = .error e → e.reason.atEnd = true := by
  constructor
  · intro hv e he
    cases Draft.fails_of_read he with
    | ended ha => exact ha
    | @stopped front m _ _ _ h rest =>
      rw [List.append_cons, tokensOf, List.map_append] at hv
      exact absurd hv.of_append (not_viable_of_read h)
  · intro h
    cases hr : Draft.read stop .empty ls with
    | ok forest =>
      have hc : Draft.Completes stop .empty ls := ⟨[], forest, by rwa [List.append_nil]⟩
      exact viable_of_completes hc
    | error e =>
      have ha := h e hr
      cases Draft.fails_of_read hr with
      | ended _ hc => exact viable_of_completes hc
      | stopped hs => exact absurd (ha.symm.trans hs) (by simp)

/-- The tokens of a text go on to a fragment exactly if the text is one or fails at its end only. -/
theorem viable_iff {ls : Lexemes} (hl : lex text = .ok ls) : Viable (tokensOf ls.list) ↔
    ∀ e, parse text = .error e → e.reason.atEnd = true := by
  have hparse : parse text = Draft.read ls.stop .empty ls.list := by
    rw [parse, hl]
    rfl
  rw [hparse]
  exact viable_iff_of_read ls.stop ls.list

/-- The lexemes `ls` go on to a fragment. With the next of all lexemes they no longer do, or else
all of them go on to a fragment and are none yet. -/
structure FirstFault (e : ParseError) (ls all : List Lexeme) : Prop where
  front : Viable (tokensOf ls)
  stopped : e.reason.atEnd = false →
    ∃ l after, all = ls ++ l :: after ∧ ¬ Viable (tokensOf (ls ++ [l]))
  ended : e.reason.atEnd = true → Viable (tokensOf all) ∧ ¬ Derives .fragment (tokensOf all)

/-- In front of the place that is given for a fault are the lexemes up to the first fault. -/
theorem exists_firstFault {p : Position} {cs : List Char} {all : Lexemes}
    (hl : lexFrom p cs = .ok all) (h : Draft.read all.stop .empty all.list = .error e) :
    ∃ ls behind, Passes p cs ls e.position behind ∧ FirstFault e ls all.list := by
  obtain ⟨list, stop⟩ := all
  have hp := passes_of_lexFrom hl
  -- the whole text is no fragment, or it would have been read
  have hnone : ¬ Derives .fragment (tokensOf list) := by
    intro hd
    obtain ⟨forest, hr⟩ := readable_of_derives hd stop list [] rfl
    exact absurd (h.symm.trans hr) (by simp)
  cases Draft.fails_of_read h with
  | ended ha hc hm =>
    have hv := viable_of_completes hc
    have hfault {ls : List Lexeme} (hls : Viable (tokensOf ls)) : FirstFault e ls list :=
      ⟨hls, fun hs => absurd (ha.symm.trans hs) (by simp), fun _ => ⟨hv, hnone⟩⟩
    -- the place is the end of the text, or a lexeme that is named; no class is open at the start
    rcases hm with hm | ⟨m, hmem, hm⟩ | ⟨o, ho, -⟩
    · rw [hm]
      exact ⟨list, [], hp, hfault hv⟩
    · obtain ⟨before, after, rfl⟩ := List.append_of_mem hmem
      obtain ⟨behind, hb⟩ := hp.up_to
      rw [tokensOf, List.map_append] at hv
      rw [← hm]
      exact ⟨before, behind, hb, hfault hv.of_append⟩
    · simp [Draft.empty] at ho
  | @stopped front m ha hc hm hread rest =>
    obtain ⟨behind, hb⟩ := hp.up_to
    rw [hm]
    exact ⟨front, behind, hb, viable_of_completes hc,
      fun _ => ⟨m, rest, rfl, not_viable_of_read hread⟩,
      fun he => absurd (ha.symm.trans he) (by simp)⟩

/-- In front of the place of a fault is a text with tokens of its own. If the whole text can be cut
into tokens, these are the tokens up to the first fault. Otherwise they go on to a fragment exactly
if nothing is wrong with the text in front but its end. -/
theorem parse_fault (h : parse text = .error e) : ∃ pre rest ls, text = pre ++ rest ∧
    Passes .start text.toList ls e.position rest.toList ∧
    Position.start.advance pre.toList = e.position ∧ lex pre = .ok ⟨ls, e.position⟩ ∧
    (∀ all, lex text = .ok all → FirstFault e ls all.list) ∧
    (Viable (tokensOf ls) ↔ ∀ e', parse pre = .error e' → e'.reason.atEnd = true) := by
  have hpasses : ∃ ls behind, Passes .start text.toList ls e.position behind ∧
      ∀ all, lex text = .ok all → FirstFault e ls all.list := by
    -- either the text cannot be cut into tokens, or the tokens cannot be read
    rcases bind_eq_error.mp h with hl | ⟨all, hl, hr⟩
    · rcases exists_passes .start text.toList with ⟨all, hall, -⟩ | ⟨e', ls, c, rest, he, hp, -⟩
      · exact absurd (hl.symm.trans hall) (by simp)
      · obtain rfl := Except.error.inj (hl.symm.trans he)
        exact ⟨ls, c :: rest, hp, fun all hall => absurd (hl.symm.trans hall) (by simp)⟩
    · obtain ⟨ls, behind, hp, hfault⟩ := exists_firstFault hl hr
      refine ⟨ls, behind, hp, ?_⟩
      intro all' hall
      obtain rfl := Except.ok.inj (hl.symm.trans hall)
      exact hfault
  obtain ⟨ls, behind, hp, hfault⟩ := hpasses
  obtain ⟨pre, hcs, hplace, hl⟩ := hp.cut
  have hlex : lex (.ofList pre) = .ok ⟨ls, e.position⟩ := by
    rw [lex, String.toList_ofList]
    exact hl
  refine ⟨.ofList pre, .ofList behind, ls, ?_, ?_, ?_, hlex, hfault, viable_iff hlex⟩
  · rw [← String.ofList_append, ← hcs, String.ofList_toList]
  · rw [String.toList_ofList]
    exact hp
  · rw [String.toList_ofList]
    exact hplace

/-- An assigned value is missing, and the tokens in front could go on with one. -/
theorem parse_fault_missingScalar :
    ∃ e, parse "class A{x=;};" = .error e ∧ e.position = ⟨10, 1, 11⟩ ∧
      ∃ pre rest ls, "class A{x=;};" = pre ++ rest ∧
        Passes .start "class A{x=;};".toList ls e.position rest.toList ∧
        Position.start.advance pre.toList = e.position ∧ lex pre = .ok ⟨ls, e.position⟩ ∧
        (∀ all, lex "class A{x=;};" = .ok all → FirstFault e ls all.list) ∧
        (Viable (tokensOf ls) ↔ ∀ e', parse pre = .error e' → e'.reason.atEnd = true) := by
  have h : parse "class A{x=;};" =
      .error ⟨⟨10, 1, 11⟩, .unexpectedToken .semicolon .scalar⟩ :=
    (map_eq_error (f := fun _ => ())).mp (by decide +kernel)
  exact ⟨_, h, rfl, parse_fault h⟩

/-- A closing brace without a class to close is not reported if the text behind it has a string that
does not end. -/
theorem parse_fault_hidden : ¬ ∀ text pre rest e ls, text = pre ++ rest →
    parse text = .error e → lex pre = .ok ⟨ls, e.position⟩ → Viable (tokensOf ls) := by
  intro h
  have hparse : parse "\x7d \"abc" = .error ⟨⟨2, 1, 3⟩, .unterminatedString⟩ :=
    (map_eq_error (f := fun _ => ())).mp (by decide +kernel)
  have hlex : lex "\x7d " = .ok ⟨[⟨.closeBrace, .start⟩], ⟨2, 1, 3⟩⟩ := by decide +kernel
  have hv := h _ "\x7d " "\"abc" _ _ rfl hparse hlex
  have hbrace : Draft.read .start .empty [⟨.closeBrace, .start⟩] =
      .error ⟨.start, .unmatchedBrace⟩ := Draft.read_of_error rfl
  have hend := (viable_iff_of_read .start _).mp hv _ hbrace
  simp [ParseError.Reason.atEnd] at hend

end Overlay.Fragment
