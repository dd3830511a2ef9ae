import Overlay.Proofs.Token.Gap

namespace Overlay
open Text (Stops isBlank)

theorem lexFrom_nil (p : Text.Position) : lexFrom p [] = .ok ⟨[], p⟩ := lexFrom.eq_def p []

theorem lexFrom_cons (p : Text.Position) (c : Char) (cs : List Char) :
    lexFrom p (c :: cs) = match Piece.read c cs with
      | .error reason => .error ⟨p, reason⟩
      | .ok (piece, n) =>
        match lexFrom (p.advance (c :: cs.take n)) (cs.drop n) with
        | .error e => .error e
        | .ok ⟨list, stop⟩ =>
          match piece with
          | .gap => .ok ⟨list, stop⟩
          | .token t => .ok ⟨⟨t, p⟩ :: list, stop⟩ :=
  lexFrom.eq_def p (c :: cs)

/-- Wherever the characters start, they are cut into these tokens. -/
def Lexes (cs : List Char) (ts : List Token) : Prop :=
  ∀ p, ∃ ls, lexFrom p cs = .ok ls ∧ ls.list.map Lexeme.token = ts

variable {c : Char} {cs rest : List Char} {ts : List Token}

theorem lexes_nil : Lexes [] [] := fun p => ⟨⟨[], p⟩, lexFrom_nil p, rfl⟩

theorem lexes_gap {n : Nat} (h : Piece.read c cs = .ok (.gap, n)) (hl : Lexes (cs.drop n) ts) :
    Lexes (c :: cs) ts := by
  intro p
  obtain ⟨ls, hls, hts⟩ := hl (p.advance (c :: cs.take n))
  refine ⟨ls, ?_, hts⟩
  simp only [lexFrom_cons, h, hls]

theorem lexes_token {t : Token} {n : Nat} (h : Piece.read c cs = .ok (.token t, n))
    (hl : Lexes (cs.drop n) ts) : Lexes (c :: cs) (t :: ts) := by
  intro p
  obtain ⟨ls, hls, hts⟩ := hl (p.advance (c :: cs.take n))
  refine ⟨⟨⟨t, p⟩ :: ls.list, ls.stop⟩, ?_, ?_⟩
  · simp only [lexFrom_cons, h, hls]
  · rw [List.map_cons, hts]

/-- A proper token stands in front where it is written and the text behind does not go on. -/
theorem lexes_written {t : Token} (ht : t.Proper) (hr : Stops t.goesOn rest) (hl : Lexes rest ts) :
    Lexes (t.written.toList ++ rest) (t :: ts) := by
  obtain ⟨c, cs, hw, hread⟩ := Piece.read_written ht hr
  rw [hw, List.cons_append]
  apply lexes_token hread
  rwa [List.drop_left]

theorem lexes_filler (f : Filler) (hl : Lexes rest ts) : Lexes (f.chars ++ rest) ts := by
  obtain ⟨c, front, hf, hread⟩ := Piece.read_filler f
  rw [hf, List.cons_append]
  apply lexes_gap (hread rest)
  rwa [List.drop_left]

/-- Every token of a text is proper. -/
theorem proper_of_lexFrom {p : Text.Position} {ls : Lexemes} (h : lexFrom p cs = .ok ls) :
    ∀ l ∈ ls.list, l.token.Proper := by
  -- on the number of characters left, since a piece takes as many of them as it likes
  induction hn : cs.length using Nat.strong_induction_on generalizing p cs ls with
  | _ n ih =>
    cases cs with
    | nil =>
      rw [lexFrom_nil, Except.ok.injEq] at h
      simp [← h]
    | cons c cs =>
      rw [lexFrom_cons] at h
      cases hr : Piece.read c cs with
      | error reason => simp [hr] at h
      | ok found =>
        obtain ⟨piece, m⟩ := found
        simp only [hr] at h
        cases hl : lexFrom (p.advance (c :: cs.take m)) (cs.drop m) with
        | error e => simp only [hl, reduceCtorEq] at h
        | ok more =>
          have hshort : (cs.drop m).length < n := by
            rw [← hn, List.length_drop, List.length_cons]
            omega
          have hmore := ih _ hshort hl rfl
          simp only [hl] at h
          cases piece with
          | gap =>
            simp only [Except.ok.injEq] at h
            rwa [← h]
          | token t =>
            simp only [Except.ok.injEq] at h
            rw [← h]
            intro l hm
            rcases List.mem_cons.mp hm with rfl | hm
            · exact Piece.proper_of_read hr
            · exact hmore l hm

/-- In front of any text, the characters stand for these tokens. -/
def Writes (cs : List Char) (ts : List Token) : Prop :=
  ∀ rest more, Lexes rest more → Lexes (cs ++ rest) (ts ++ more)

theorem writes_nil : Writes [] [] := fun _ _ h => h

theorem Writes.lexes (h : Writes cs ts) : Lexes cs ts := by
  have hl := h [] [] lexes_nil
  rwa [List.append_nil, List.append_nil] at hl

/-- What is written in a row stands for the tokens in a row. -/
theorem Writes.append {cs' : List Char} {ts' : List Token} (h : Writes cs ts)
    (h' : Writes cs' ts') : Writes (cs ++ cs') (ts ++ ts') := by
  intro rest more hl
  rw [List.append_assoc, List.append_assoc]
  exact h _ _ (h' rest more hl)

theorem writes_filler (f : Filler) : Writes f.chars [] := fun _ _ h => lexes_filler f h

theorem writes_blanks {blanks : List Char} (hb : ∀ c ∈ blanks, isBlank c = true) :
    Writes blanks [] := by
  induction blanks with
  | nil => exact writes_nil
  | cons c cs ih =>
    obtain ⟨hc, hcs⟩ := List.forall_mem_cons.mp hb
    exact (writes_filler (.blank c hc)).append (ih hcs)

theorem writes_comment {body : List Char} (hb : '*' ∉ body) :
    Writes ('/' :: '*' :: (body ++ ['*', '/'])) [] := by
  refine writes_filler (.blockComment body fun hmark => hb ?_)
  exact hmark.subset List.mem_cons_self

/-- A token of one character needs nothing behind it. -/
theorem writes_single {t : Token} (h : ∀ cs, Piece.read c cs = .ok (.token t, 0)) :
    Writes [c] [t] := fun rest _ hl => lexes_token (h rest) hl

/-- A proper token is read back in front of anything that it does not go on with. -/
theorem Writes.token {t : Token} (h : Writes (c :: cs) ts) (ht : t.Proper)
    (hc : t.goesOn c = false) : Writes (t.written.toList ++ c :: cs) (t :: ts) := by
  intro rest more hl
  rw [List.append_assoc]
  exact lexes_written ht (Text.stops_cons.mpr hc) (h rest more hl)

theorem writes_flatMap {α : Type} {xs : List α} {f : α → List Char} {g : α → List Token}
    (h : ∀ x ∈ xs, Writes (f x) (g x)) : Writes (xs.flatMap f) (xs.flatMap g) := by
  induction xs with
  | nil => exact writes_nil
  | cons x xs ih =>
    obtain ⟨hx, hxs⟩ := List.forall_mem_cons.mp h
    exact hx.append (ih hxs)

end Overlay
