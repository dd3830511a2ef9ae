import Overlay.Proofs.Fragment.Statement

namespace Overlay
open Text (Position)

def ParseError.Reason.atEnd : ParseError.Reason → Bool
  | .unexpectedEnd _ => true
  | .unclosedBrace => true
  | _ => false

namespace Fragment

variable {α β : Type} {stop : Position} {l : Lexeme} {ls front : List Lexeme}
  {R S : List Lexeme → Except ParseError (α × List Lexeme)}

/-- A reader takes exactly these lexemes, whatever is behind them. -/
def Takes (R : List Lexeme → Except ParseError (α × List Lexeme)) (front : List Lexeme) : Prop :=
  ∃ a, ∀ rest, R (front ++ rest) = .ok (a, rest)

/-- What a reader makes of the lexemes it is given. -/
inductive Outcome (stop : Position) (R : List Lexeme → Except ParseError (α × List Lexeme)) :
    List Lexeme → Prop
  | taken {front : List Lexeme} (h : Takes R front) (rest : List Lexeme) :
      Outcome stop R (front ++ rest)
  | ended {ls more : List Lexeme} {e : ParseError} (h : R ls = .error e)
      (ha : e.reason.atEnd = true) (hp : e.position = stop) (hm : Takes R (ls ++ more)) :
      Outcome stop R ls
  | stopped {front more : List Lexeme} {l : Lexeme} {e : ParseError}
      (h : ∀ rest, R (front ++ l :: rest) = .error e) (ha : e.reason.atEnd = false)
      (hp : e.position = l.position) (hm : Takes R (front ++ more)) (rest : List Lexeme) :
      Outcome stop R (front ++ l :: rest)

namespace Takes

theorem cons (h : ∀ rest, R (l :: rest) = S rest) (hs : Takes S front) : Takes R (l :: front) := by
  obtain ⟨a, ha⟩ := hs
  exact ⟨a, fun rest => (h (front ++ rest)).trans (ha rest)⟩

theorem bind {g : α × List Lexeme → Except ParseError (β × List Lexeme)} {a : α}
    {more : List Lexeme} (h : ∀ rest, R (front ++ rest) = .ok (a, rest))
    (hg : Takes (fun ls => g (a, ls)) more) : Takes (fun ls => R ls >>= g) (front ++ more) := by
  obtain ⟨b, hb⟩ := hg
  refine ⟨b, ?_⟩
  intro rest
  simp only
  rw [List.append_assoc, h]
  exact hb rest

end Takes

namespace Outcome

/-- There are lexemes that the reader takes. -/
theorem exists_takes (h : Outcome stop R []) : ∃ more, Takes R more := by
  generalize hls : ([] : List Lexeme) = ls at h
  cases h with
  | taken h => exact ⟨_, h⟩
  | ended _ _ _ hm => exact ⟨_, hm⟩
  | stopped _ _ _ hm => exact ⟨_, hm⟩

theorem pure (a : α) : Outcome stop (fun ls => .ok (a, ls)) ls := by
  have htakes : Takes (fun ls => .ok (a, ls)) [] := ⟨a, fun _ => rfl⟩
  exact taken htakes ls

/-- A reader that stops at the first lexeme it is given. -/
theorem first {more : List Lexeme} {e : ParseError} (h : ∀ rest, R (l :: rest) = .error e)
    (ha : e.reason.atEnd = false) (hp : e.position = l.position) (hm : Takes R more) :
    Outcome stop R (l :: ls) := by
  have hall (rest : List Lexeme) : R ([] ++ l :: rest) = .error e := h rest
  exact stopped hall ha hp hm ls

/-- Behind its first lexeme a reader may go on as another one. -/
theorem cons (h : ∀ rest, R (l :: rest) = S rest) (hs : Outcome stop S ls) :
    Outcome stop R (l :: ls) := by
  cases hs with
  | taken hs rest => exact taken (hs.cons h) rest
  | ended hs ha hp hm => exact ended ((h _).trans hs) ha hp (hm.cons h)
  | stopped hs ha hp hm rest =>
    rw [← List.cons_append]
    exact stopped (fun rest => (h _).trans (hs rest)) ha hp (hm.cons h) rest

/-- A reader that goes on behind another one. -/
theorem bind {g : α × List Lexeme → Except ParseError (β × List Lexeme)} (hr : Outcome stop R ls)
    (hg : ∀ a ls, Outcome stop (fun ls => g (a, ls)) ls) :
    Outcome stop (fun ls => R ls >>= g) ls := by
  -- what the first reader takes can be completed to what both take
  have hboth {front : List Lexeme} (h : Takes R front) :
      ∃ more, Takes (fun ls => R ls >>= g) (front ++ more) := by
    obtain ⟨a, ha⟩ := h
    obtain ⟨more, hm⟩ := (hg a []).exists_takes
    exact ⟨more, hm.bind ha⟩
  cases hr with
  | ended h ha hp hm =>
    obtain ⟨more, hm⟩ := hboth hm
    rw [List.append_assoc] at hm
    refine ended ?_ ha hp hm
    rw [h]
    rfl
  | @stopped front _ l e h ha hp hm rest =>
    obtain ⟨more, hm⟩ := hboth hm
    rw [List.append_assoc] at hm
    refine stopped ?_ ha hp hm rest
    intro rest
    rw [h]
    rfl
  | @taken front h rest =>
    obtain ⟨a, ha⟩ := h
    have hbehind (rest : List Lexeme) : (R (front ++ rest) >>= g) = g (a, rest) := by
      rw [ha]
      rfl
    have hmore {ls more : List Lexeme} (h : Takes (fun ls => g (a, ls)) (ls ++ more)) :
        Takes (fun ls => R ls >>= g) (front ++ ls ++ more) := by
      rw [List.append_assoc]
      exact h.bind ha
    -- behind what the first reader takes, everything is as the second one has it
    cases hg a rest with
    | taken h rest =>
      rw [← List.append_assoc]
      exact taken (h.bind ha) rest
    | ended h hend hp hm => exact ended ((hbehind rest).trans h) hend hp (hmore hm)
    | stopped h hend hp hm rest =>
      rw [← List.append_assoc]
      refine stopped ?_ hend hp (hmore hm) rest
      intro rest
      rw [List.append_assoc, hbehind]
      exact h rest

/-- A reader that has to see one lexeme of a kind, and fails at any other. -/
theorem single {more : List Lexeme} {expected : Expected} (hm : Takes R more)
    (hnil : R [] = .error (unexpected stop expected []))
    (hcons : ∀ l, Takes R [l] ∨ ∃ e : ParseError, e.reason.atEnd = false ∧
      e.position = l.position ∧ ∀ rest, R (l :: rest) = .error e) : Outcome stop R ls := by
  cases ls with
  | nil => exact ended hnil rfl rfl hm
  | cons l ls =>
    rcases hcons l with h | ⟨e, ha, hp, he⟩
    · exact taken h ls
    · exact first he ha hp hm

end Outcome

variable {expected : Expected}

/-- A token that has to stand in front of what a reader reads. -/
theorem outcome_expect {t : Token} (hs : ∀ ls, Outcome stop S ls) :
    Outcome stop (fun ls => expect stop t expected ls >>= S) ls := by
  have hgo (p : Position) (rest : List Lexeme) :
      (expect stop t expected (⟨t, p⟩ :: rest) >>= S) = S rest := by
    rw [expect_eq_ok.mpr ⟨p, rfl⟩]
    rfl
  obtain ⟨more, hm⟩ := (hs []).exists_takes
  have hm : Takes (fun ls => expect stop t expected ls >>= S) (⟨t, stop⟩ :: more) :=
    .cons (hgo stop) hm
  cases ls with
  | nil => exact .ended rfl rfl rfl hm
  | cons l ls =>
    obtain ⟨token, p⟩ := l
    by_cases ht : token = t
    · subst ht
      exact (hs ls).cons (hgo p)
    · refine .first (e := unexpected stop expected [⟨token, p⟩]) ?_ rfl rfl hm
      intro rest
      rw [expect, if_neg ht]
      rfl

theorem outcome_name : Outcome stop (readName stop expected) ls := by
  have htakes (name : String) (p : Position) (hn : name ≠ classKeyword) :
      Takes (readName stop expected) [⟨.word name, p⟩] :=
    ⟨name, fun rest => readName_eq_ok.mpr ⟨hn, p, rfl⟩⟩
  refine .single (htakes "" stop (by decide)) rfl ?_
  intro l
  by_cases hl : ∃ name p, name ≠ classKeyword ∧ l = ⟨.word name, p⟩
  · obtain ⟨name, p, hn, rfl⟩ := hl
    exact .inl (htakes name p hn)
  · refine .inr ⟨unexpected stop expected [l], rfl, rfl, ?_⟩
    intro rest
    rw [readName.eq_def]
    split
    · rename_i name p ls he
      obtain ⟨rfl, rfl⟩ := List.cons.inj he
      have hk : name = classKeyword := by
        by_contra hk
        exact hl ⟨name, p, hk, rfl⟩
      rw [if_pos hk]
      rfl
    · rfl

theorem outcome_scalar : Outcome stop (readScalar stop) ls := by
  have htakes {l : Lexeme} {s : Scalar} (hs : scalar? l.token = some s) :
      Takes (readScalar stop) [l] :=
    ⟨s, fun rest => readScalar_eq_ok.mpr ⟨l, hs, rfl⟩⟩
  refine .single (htakes (l := ⟨.number "0", stop⟩) rfl) rfl ?_
  intro l
  cases hs : scalar? l.token with
  | some s => exact .inl (htakes hs)
  | none =>
    refine .inr ⟨unexpected stop .scalar [l], rfl, rfl, ?_⟩
    intro rest
    simp only [readScalar, hs]
    rfl

theorem outcome_marker : Outcome stop (readMarker stop) ls := by
  have htakes (append : Bool) (p : Position) : Takes (readMarker stop) [⟨marker append, p⟩] :=
    ⟨append, fun rest => readMarker_eq_ok.mpr ⟨p, rfl⟩⟩
  refine .single (htakes true stop) rfl ?_
  intro l
  obtain ⟨token, p⟩ := l
  cases token with
  | assign => exact .inl (htakes false p)
  | append => exact .inl (htakes true p)
  | _ => exact .inr ⟨_, rfl, rfl, fun _ => rfl⟩

theorem outcome_brace : Outcome stop (readBrace stop) ls := by
  have htakes (p : Position) : Takes (readBrace stop) [⟨.openBrace, p⟩] :=
    ⟨p, fun rest => readBrace_eq_ok.mpr rfl⟩
  refine .single (htakes stop) rfl ?_
  intro l
  obtain ⟨token, p⟩ := l
  cases token with
  | openBrace => exact .inl (htakes p)
  | _ => exact .inr ⟨_, rfl, rfl, fun _ => rfl⟩

/-- An element and the comma behind it, in front of the elements that follow. -/
theorem outcome_element {l m : Lexeme} {s : Scalar} {ms : List Lexeme}
    (hs : scalar? l.token = some s) (hm : m.token = .comma)
    (h : Outcome stop (readItems stop) ms) : Outcome stop (readItems stop) (l :: m :: ms) := by
  have hmore : Outcome stop
      (fun ls => readItems stop ls >>= fun read => .ok (s :: read.1, read.2)) ms :=
    h.bind fun items _ => .pure (s :: items)
  refine .cons (S := fun ls => readItems stop (l :: ls)) (fun _ => rfl) (.cons ?_ hmore)
  intro rest
  rw [readItems, if_neg (scalar_ne_closeBrace hs)]
  simp only [hs, hm, if_true]
  cases readItems stop rest <;> rfl

/-- An array is read element by element, so its outcome is that of the elements in a row. -/
theorem outcome_items : Outcome stop (readItems stop) ls := by
  -- the closing brace may stand behind an element as well as instead of one
  have hclose {l : Lexeme} (hl : l.token = .closeBrace) : Takes (readItems stop) [l] :=
    ⟨[], fun rest => readItems_of_items .close (congrArg (fun t => [t]) hl)⟩
  have hlast {l m : Lexeme} {s : Scalar} (hs : scalar? l.token = some s)
      (hm : m.token = .closeBrace) : Takes (readItems stop) [l, m] := by
    refine ⟨[s], fun rest => readItems_of_items (.last hs) ?_⟩
    rw [tokensOf, List.map_cons, List.map_singleton, hm]
  fun_induction readItems stop ls with
  | case1 => exact .ended rfl rfl rfl (hclose (l := ⟨.closeBrace, stop⟩) rfl)
  | case2 l ls hl => exact .taken (hclose hl) ls
  | case3 l ls hl hs =>
    refine .first (e := unexpected stop .scalar [l]) ?_ rfl rfl
      (hclose (l := ⟨.closeBrace, stop⟩) rfl)
    intro rest
    rw [readItems, if_neg hl]
    simp only [hs]
    rfl
  | case4 l hl s hs =>
    refine .ended (e := unexpected stop .commaOrBrace []) ?_ rfl rfl
      (hlast (m := ⟨.closeBrace, stop⟩) hs rfl)
    rw [readItems, if_neg hl]
    simp only [hs]
  | case5 l hl s hs m ms hm items rest hr ih => exact outcome_element hs hm ih
  | case6 l hl s hs m ms hm e he ih => exact outcome_element hs hm ih
  | case7 l hl s hs m ms hcomma hm => exact .taken (hlast hs hm) ms
  | case8 l hl s hs m ms hcomma hm =>
    have hstops (rest : List Lexeme) :
        readItems stop ([l] ++ m :: rest) = .error (unexpected stop .commaOrBrace [m]) := by
      rw [List.singleton_append, readItems, if_neg hl]
      simp only [hs, if_neg hcomma, if_neg hm]
      rfl
    exact .stopped hstops rfl rfl (hlast (m := ⟨.closeBrace, stop⟩) hs rfl) ms

theorem outcome_array {name : String} : Outcome stop (readArray stop name) ls := by
  have hgo (p : Position) (rest : List Lexeme) :
      readArray stop name (⟨.openBrace, p⟩ :: rest) = readItems stop rest := rfl
  have hitems : Outcome stop (readItems stop) [] := outcome_items
  obtain ⟨more, hm⟩ := hitems.exists_takes
  have hm : Takes (readArray stop name) (⟨.openBrace, stop⟩ :: more) := hm.cons (hgo stop)
  cases ls with
  | nil => exact .ended rfl rfl rfl hm
  | cons l ls =>
    obtain ⟨token, p⟩ := l
    cases token with
    | openBrace => exact outcome_items.cons (hgo p)
    | _ => exact .first (fun _ => rfl) rfl rfl hm

/-- Behind its name, a property goes on with an array or with a scalar. -/
theorem outcome_property {name : String} {position : Position} :
    Outcome stop (readProperty stop name position) ls := by
  have hscalar (p : Position) (ls : List Lexeme) :
      Outcome stop (readProperty stop name position) (⟨.assign, p⟩ :: ls) := by
    refine .cons (fun _ => rfl) (outcome_scalar.bind ?_)
    intro s ls
    exact outcome_expect fun ls => .pure _
  have harray (p : Position) (ls : List Lexeme) :
      Outcome stop (readProperty stop name position) (⟨.openBracket, p⟩ :: ls) := by
    refine .cons (fun _ => rfl) (outcome_expect fun ls => outcome_marker.bind ?_)
    intro append ls
    refine outcome_array.bind ?_
    intro items ls
    exact outcome_expect fun ls => .pure _
  -- a scalar could always follow
  have hm : Takes (readProperty stop name position)
      [⟨.assign, stop⟩, ⟨.number "0", stop⟩, ⟨.semicolon, stop⟩] :=
    ⟨_, fun rest => readProperty_of_assignment (.scalar (s := .number "0") rfl) rfl name position⟩
  cases ls with
  | nil => exact .ended rfl rfl rfl hm
  | cons l ls =>
    obtain ⟨token, p⟩ := l
    cases token with
    | assign => exact hscalar p ls
    | openBracket => exact harray p ls
    | _ => exact .first (fun _ => rfl) rfl rfl hm

theorem outcome_headEnd {name : String} : Outcome stop (readHeadEnd stop name) ls := by
  have hbase (p : Position) (ls : List Lexeme) :
      Outcome stop (readHeadEnd stop name) (⟨.colon, p⟩ :: ls) := by
    refine .cons (fun _ => rfl) (outcome_name.bind ?_)
    intro base ls
    exact outcome_brace.bind fun brace ls => .pure _
  have hopening (p : Position) : Takes (readHeadEnd stop name) [⟨.openBrace, p⟩] :=
    ⟨.opening name none p, fun _ => rfl⟩
  have hforward (p : Position) : Takes (readHeadEnd stop name) [⟨.semicolon, p⟩] :=
    ⟨.forward name, fun _ => rfl⟩
  cases ls with
  | nil => exact .ended rfl rfl rfl (hopening stop)
  | cons l ls =>
    obtain ⟨token, p⟩ := l
    cases token with
    | semicolon => exact .taken (hforward p) ls
    | colon => exact hbase p ls
    | openBrace => exact .taken (hopening p) ls
    | _ => exact .first (fun _ => rfl) rfl rfl (hopening stop)

/-- The head of a class is that of an announced class or of a body. -/
theorem outcome_head : Outcome stop (readHead stop) ls :=
  outcome_name.bind fun _ _ => outcome_headEnd

end Fragment

end Overlay
