import Overlay.Proofs.Token.Lex

namespace Overlay
open Text (Stops Position isBlank)
open Number (isWordChar isLiteralChar readLiteral)

namespace Piece

variable {c : Char} {cs : List Char} {piece : Piece} {n : Nat}

def lexemes (p : Position) : Piece → List Lexeme
  | gap => []
  | token t => [⟨t, p⟩]

/-- A text that is read stands in front, with its quotes doubled and a quote behind it. -/
theorem quoted_of_readText {value : List Char} (h : readText? cs = some (value, n)) :
    ∃ rest, cs = (value.flatMap fun c => if c = '"' then ['"', '"'] else [c]) ++ '"' :: rest ∧
      n = (value.flatMap fun c => if c = '"' then ['"', '"'] else [c]).length + 1 ∧
      Stops (· == '"') rest := by
  fun_induction readText? cs generalizing value n with
  | case1 cs ih =>
    obtain ⟨⟨more, m⟩, hm, he⟩ := Option.map_eq_some_iff.mp h
    obtain ⟨rfl, rfl⟩ := Prod.mk.inj he
    obtain ⟨rest, rfl, rfl, hr⟩ := ih hm
    exact ⟨rest, rfl, rfl, hr⟩
  | case2 cs hcs =>
    obtain ⟨rfl, rfl⟩ := Prod.mk.inj (Option.some.inj h)
    refine ⟨cs, rfl, rfl, ?_⟩
    -- a second quote would have gone on with the text
    intro d hd
    obtain ⟨ds, rfl⟩ := List.head?_eq_some_iff.mp hd
    rw [beq_eq_false_iff_ne]
    rintro rfl
    exact hcs ds rfl
  | case3 cs => simp at h
  | case4 c cs hquotes hquote hc ih =>
    obtain ⟨⟨more, m⟩, hm, he⟩ := Option.map_eq_some_iff.mp h
    obtain ⟨rfl, rfl⟩ := Prod.mk.inj he
    obtain ⟨rest, rfl, rfl, hr⟩ := ih hm
    have hne : c ≠ '"' := hquote
    refine ⟨rest, ?_, ?_, hr⟩
    · simp [hne]
    · simp [hne]
  | case5 => simp at h

/-- What is read as a token is the token as it is written, and what is behind it does not go on with
it. -/
theorem written_of_read {t : Token} (h : read c cs = .ok (.token t, n)) : ∃ front rest,
    cs = front ++ rest ∧ front.length = n ∧ t.written.toList = c :: front ∧
      Stops t.goesOn rest := by
  rw [read] at h
  split_ifs at h with hb hline hblock happend hquote hnumber hword
  -- gaps are no tokens
  · simp at h
  · simp at h
  · split at h <;> simp at h
  · simp only [Except.ok.injEq, Prod.mk.injEq, token.injEq] at h
    obtain ⟨rfl, rfl⟩ := h
    obtain ⟨rfl, hhead⟩ := happend
    obtain ⟨rest, rfl⟩ := List.head?_eq_some_iff.mp hhead
    exact ⟨['='], rest, rfl, rfl, rfl, fun _ _ => rfl⟩
  · split at h
    · rename_i value m hv
      simp only [Except.ok.injEq, Prod.mk.injEq, token.injEq] at h
      obtain ⟨rfl, rfl⟩ := h
      obtain ⟨rest, rfl, rfl, hr⟩ := quoted_of_readText hv
      refine ⟨_ ++ ['"'], rest, by rw [List.append_assoc]; rfl, by rw [List.length_append]; rfl,
        ?_, hr⟩
      simp [Token.written, quoted, hquote]
    · simp at h
  · split at h
    · rename_i literal hl
      simp only [Except.ok.injEq, Prod.mk.injEq, token.injEq] at h
      obtain ⟨rfl, rfl⟩ := h
      obtain ⟨hliteral, rest, hcs, hr⟩ := Number.literal_of_read hl
      obtain ⟨d, front, rfl, _⟩ := Number.literal_first hliteral
      obtain ⟨rfl, rfl⟩ := List.cons.inj hcs
      exact ⟨front, rest, rfl, rfl, String.toList_ofList, hr⟩
    · simp at h
  · simp only [Except.ok.injEq, Prod.mk.injEq, token.injEq] at h
    obtain ⟨rfl, rfl⟩ := h
    exact ⟨cs.takeWhile isWordChar, cs.dropWhile isWordChar,
      List.takeWhile_append_dropWhile.symm, rfl, String.toList_ofList,
      Text.stops_dropWhile isWordChar cs⟩
  -- the marks that are left are tokens of their own, which nothing goes on with
  · split at h
    · rename_i t' hs
      simp only [Except.ok.injEq, Prod.mk.injEq, token.injEq] at h
      obtain ⟨rfl, rfl⟩ := h
      refine ⟨[], cs, rfl, rfl, ?_, ?_⟩
      · unfold single? at hs
        split at hs <;> first | (obtain rfl := Option.some.inj hs; rfl) | simp at hs
      · unfold single? at hs
        split at hs <;>
          first | (obtain rfl := Option.some.inj hs; exact fun _ _ => rfl) | simp at hs
    · simp at h

/-- A token is read wherever its characters stand in front of something that does not go on with
it. -/
theorem read_front_token {t : Token} (h : read c cs = .ok (.token t, n)) : ∃ front rest,
    cs = front ++ rest ∧ front.length = n ∧ Stops t.goesOn rest ∧
      ∀ rest, Stops t.goesOn rest → read c (front ++ rest) = .ok (.token t, n) := by
  obtain ⟨front, rest, hcs, hn, hw, hr⟩ := written_of_read h
  refine ⟨front, rest, hcs, hn, hr, ?_⟩
  intro rest hr
  obtain ⟨d, ds, hw', hread⟩ := read_written (proper_of_read h) hr
  obtain ⟨rfl, rfl⟩ := List.cons.inj (hw.symm.trans hw')
  rw [hread, hn]

/-- What stands between tokens is read as such whatever is behind it. Only a comment at the end of a
text that has no end of a line behind it goes on up to the next one. -/
theorem read_front_gap (h : read c cs = .ok (.gap, n)) :
    (∃ front rest, cs = front ++ rest ∧ front.length = n ∧
      ∀ rest, read c (front ++ rest) = .ok (.gap, n)) ∨
    n = cs.length + 1 ∧ ∀ rest, read c (cs ++ '\n' :: rest) = .ok (.gap, n) := by
  rcases filler_of_read h with ⟨f, front, rest, hf, hcs, rfl⟩ | ⟨body, hbody, rfl, rfl, hn⟩
  · obtain ⟨d, ds, hd, hread⟩ := read_filler f
    obtain ⟨rfl, rfl⟩ := List.cons.inj (hf.symm.trans hd)
    exact .inl ⟨front, rest, hcs, rfl, hread⟩
  · refine .inr ⟨hn, fun rest => ?_⟩
    rw [List.cons_append, read_lineComment hbody (by simp), hn, List.length_cons]

/-- A piece that is read is read again in the text up to a place behind it. -/
theorem read_cut (h : read c cs = .ok (piece, n)) {pre rest : List Char}
    (hd : cs.drop n = pre ++ rest) : read c (cs.take n ++ pre) = .ok (piece, n) ∧
      (cs.take n ++ pre).take n = cs.take n ∧ (cs.take n ++ pre).drop n = pre := by
  -- all but an unended comment has its length in front of the place where the text is cut
  have hfront (front behind : List Char) (hcs : cs = front ++ behind) (hn : front.length = n)
      (hread : read c (front ++ pre) = .ok (piece, n)) :
      read c (cs.take n ++ pre) = .ok (piece, n) ∧
      (cs.take n ++ pre).take n = cs.take n ∧ (cs.take n ++ pre).drop n = pre := by
    have htake : cs.take n = front := by rw [hcs, List.take_left' hn]
    rw [htake, List.take_left' hn, List.drop_left' hn]
    exact ⟨hread, rfl, rfl⟩
  cases piece with
  | token t =>
    obtain ⟨front, behind, hcs, hn, hr, hall⟩ := read_front_token h
    have hstops : Stops t.goesOn (pre ++ rest) := by rwa [← hd, hcs, List.drop_left' hn]
    exact hfront front behind hcs hn (hall pre hstops.of_append)
  | gap =>
    rcases read_front_gap h with ⟨front, behind, hcs, hn, hall⟩ | ⟨hn, -⟩
    · exact hfront front behind hcs hn (hall pre)
    · have hlong : cs.length ≤ n := by omega
      rw [List.drop_eq_nil_of_le hlong] at hd
      obtain ⟨rfl, -⟩ := List.append_eq_nil_iff.mp hd.symm
      rw [List.append_nil, List.take_of_length_le hlong]
      exact ⟨h, List.take_of_length_le hlong, List.drop_eq_nil_of_le hlong⟩

/-- A piece is read again in front of another line. A comment at the end of the text takes the end
of its line along. -/
theorem read_line (h : read c cs = .ok (piece, n)) (more : List Char) :
    read c (cs ++ '\n' :: more) = .ok (piece, n) ∧
      ((cs ++ '\n' :: more).drop n = cs.drop n ++ '\n' :: more ∨
        cs.drop n = [] ∧ (cs ++ '\n' :: more).drop n = more) := by
  have hfront (front rest : List Char) (hcs : cs = front ++ rest) (hn : front.length = n) :
      (cs ++ '\n' :: more).drop n = cs.drop n ++ '\n' :: more := by
    rw [hcs, List.append_assoc, List.drop_left' hn, List.drop_left' hn]
  cases piece with
  | token t =>
    obtain ⟨front, rest, hcs, hn, hr, hall⟩ := read_front_token h
    refine ⟨?_, .inl (hfront front rest hcs hn)⟩
    rw [hcs, List.append_assoc]
    apply hall
    cases rest with
    | nil =>
      -- a new line goes on with no token
      refine Text.stops_cons.mpr ?_
      cases t <;> rfl
    | cons d ds => exact Text.stops_cons.mpr (Text.stops_cons.mp hr)
  | gap =>
    rcases read_front_gap h with ⟨front, rest, hcs, hn, hall⟩ | ⟨hn, hall⟩
    · refine ⟨?_, .inl (hfront front rest hcs hn)⟩
      rw [hcs, List.append_assoc]
      exact hall _
    -- only a comment on the last line goes on up to the new line
    · refine ⟨hall more, .inr ⟨List.drop_eq_nil_of_le (by omega), ?_⟩⟩
      rw [hn, ← List.drop_drop, List.drop_left]
      rfl

end Piece

/-- Going from piece to piece leads over some lexemes from one place to another one, behind which
the rest of the text stands. -/
inductive Passes : Position → List Char → List Lexeme → Position → List Char → Prop
  | here (p : Position) (cs : List Char) : Passes p cs [] p cs
  | piece {p q : Position} {c : Char} {cs rest : List Char} {piece : Piece} {n : Nat}
      {ls : List Lexeme} (h : Piece.read c cs = .ok (piece, n))
      (hp : Passes (p.advance (c :: cs.take n)) (cs.drop n) ls q rest) :
      Passes p (c :: cs) (piece.lexemes p ++ ls) q rest

variable {p q : Position} {cs rest : List Char} {ls before after : List Lexeme} {l : Lexeme}

/-- The lexemes of a text are those of its first piece and those of the rest. -/
theorem lexFrom_piece {c : Char} {piece : Piece} {n : Nat} {stop : Position}
    (h : Piece.read c cs = .ok (piece, n))
    (hl : lexFrom (p.advance (c :: cs.take n)) (cs.drop n) = .ok ⟨ls, stop⟩) :
    lexFrom p (c :: cs) = .ok ⟨piece.lexemes p ++ ls, stop⟩ := by
  rw [lexFrom_cons]
  simp only [h, hl]
  cases piece <;> rfl

/-- A text is cut into the lexemes over which its pieces lead to its end, or to a fault. -/
theorem exists_passes (p : Position) (cs : List Char) :
    (∃ ls, lexFrom p cs = .ok ls ∧ Passes p cs ls.list ls.stop []) ∨
      ∃ e ls c rest, lexFrom p cs = .error e ∧ Passes p cs ls e.position (c :: rest) ∧
        Piece.read c rest = .error e.reason := by
  -- on the number of characters left, since a piece takes as many of them as it likes
  induction hn : cs.length using Nat.strong_induction_on generalizing p cs with
  | _ n ih =>
    cases cs with
    | nil => exact .inl ⟨_, lexFrom_nil p, .here p []⟩
    | cons c cs =>
      cases hr : Piece.read c cs with
      | error reason =>
        refine .inr ⟨⟨p, reason⟩, [], c, cs, ?_, .here p _, hr⟩
        simp only [lexFrom_cons, hr]
      | ok found =>
        obtain ⟨piece, m⟩ := found
        have hshort : (cs.drop m).length < n := by
          rw [← hn, List.length_drop, List.length_cons]
          omega
        rcases ih _ hshort (p.advance (c :: cs.take m)) (cs.drop m) rfl with
          ⟨ls, hl, hp⟩ | ⟨e, ls, d, rest, hl, hp, he⟩
        · exact .inl ⟨_, lexFrom_piece hr hl, .piece hr hp⟩
        · refine .inr ⟨e, _, d, rest, ?_, .piece hr hp, he⟩
          simp only [lexFrom_cons, hr, hl]

theorem passes_of_lexFrom {lexemes : Lexemes} (h : lexFrom p cs = .ok lexemes) :
    Passes p cs lexemes.list lexemes.stop [] := by
  rcases exists_passes p cs with ⟨ls, hl, hp⟩ | ⟨e, _, _, _, hl, _⟩
  · obtain rfl := Except.ok.inj (h.symm.trans hl)
    exact hp
  · exact absurd (h.symm.trans hl) (by simp)

/-- The lexemes up to a place are those of the text in front of it. -/
theorem Passes.cut (h : Passes p cs ls q rest) :
    ∃ pre, cs = pre ++ rest ∧ p.advance pre = q ∧ lexFrom p pre = .ok ⟨ls, q⟩ := by
  induction h with
  | here p cs => exact ⟨[], rfl, rfl, lexFrom_nil p⟩
  | @piece p q c cs rest piece n ls h _ ih =>
    obtain ⟨pre, hcs, hq, hl⟩ := ih
    obtain ⟨hread, htake, hdrop⟩ := Piece.read_cut h hcs
    refine ⟨c :: (cs.take n ++ pre), ?_, ?_, ?_⟩
    · rw [List.cons_append, List.append_assoc, ← hcs, List.take_append_drop]
    · rw [← hq, Position.advance_cons, Position.advance_cons]
      exact List.foldl_append
    · apply lexFrom_piece hread
      rw [htake, hdrop]
      exact hl

/-- Where a lexeme is, the pieces in front of it have led over the lexemes before it. -/
theorem Passes.up_to (h : Passes p cs (before ++ l :: after) q rest) :
    ∃ behind, Passes p cs before l.position behind := by
  generalize hls : before ++ l :: after = ls at h
  induction h generalizing before with
  | here p cs => exact absurd hls (by simp)
  | @piece p q c cs rest piece n ls h hp ih =>
    cases piece with
    | gap =>
      obtain ⟨behind, hb⟩ := ih hls
      exact ⟨behind, .piece h hb⟩
    | token t =>
      cases before with
      | nil =>
        obtain ⟨rfl, -⟩ := List.cons.inj hls
        exact ⟨c :: cs, .here p _⟩
      | cons first before =>
        obtain ⟨rfl, htail⟩ := List.cons.inj hls
        obtain ⟨behind, hb⟩ := ih htail
        exact ⟨behind, .piece h hb⟩

/-- Which tokens a text is cut into does not depend on where it starts. -/
theorem Passes.lexes (h : Passes p cs ls q rest) (hend : rest = []) :
    Lexes cs (ls.map Lexeme.token) := by
  induction h with
  | here p cs =>
    subst hend
    exact lexes_nil
  | @piece p q c cs rest piece n ls h _ ih =>
    cases piece with
    | gap => exact lexes_gap h (ih hend)
    | token t => exact lexes_token h (ih hend)

/-- On a line of its own a text stands for its tokens, whatever comes on the next lines. -/
theorem Passes.writes (h : Passes p cs ls q rest) (hend : rest = []) :
    Writes (cs ++ ['\n']) (ls.map Lexeme.token) := by
  induction h with
  | here p cs =>
    subst hend
    exact writes_blanks (by simp [isBlank])
  | @piece p q c cs rest piece n ls h hp ih =>
    intro next more hl
    have hread := Piece.read_line h next
    have hlexes : Lexes ((cs ++ '\n' :: next).drop n) (ls.map Lexeme.token ++ more) := by
      rcases hread.2 with hdrop | ⟨hnil, hdrop⟩
      · have hrest := ih hend next more hl
        rw [List.append_assoc] at hrest
        rw [hdrop]
        exact hrest
      · rw [hnil] at hp
        cases hp
        rw [hdrop]
        exact hl
    rw [List.cons_append, List.cons_append, List.append_assoc]
    cases piece with
    | gap => exact lexes_gap hread.1 hlexes
    | token t => exact lexes_token hread.1 hlexes

end Overlay
