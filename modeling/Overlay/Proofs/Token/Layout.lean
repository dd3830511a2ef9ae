import Overlay.Proofs.Token.Lex

/-! The layout of a text: its tokens as they are written, with gaps between them. A token goes on
with nothing that a gap can start with, so a text that has a gap in front of every token but the
first has just these tokens, whatever blanks and comments the gaps are made of. -/
namespace Overlay
open Text (Stops isBlank)
open Number (isLiteralChar)

def gapChars (gap : List Filler) : List Char := gap.flatMap Filler.chars

/-- What may stand behind the last token. A comment on the last line needs no end of the line. -/
inductive LastGap : List Char → Prop
  | whole (gap : List Filler) : LastGap (gapChars gap)
  | comment (gap : List Filler) {body : List Char} (h : '\n' ∉ body) :
      LastGap (gapChars gap ++ '/' :: '/' :: body)

/-- Tokens as they are written, each behind the gap in front of it. -/
def layOut (rows : List (List Filler × Token)) : List Char :=
  rows.flatMap fun (gap, t) => gapChars gap ++ t.written.toList

variable {last : List Char} {rows : List (List Filler × Token)} {gap : List Filler} {t : Token}

theorem layOut_cons (gap : List Filler) (t : Token) (rows : List (List Filler × Token)) :
    layOut ((gap, t) :: rows) = gapChars gap ++ (t.written.toList ++ layOut rows) := by
  rw [layOut, List.flatMap_cons, List.append_assoc]
  rfl

namespace Token

/-- No token goes on with a slash or a blank, so none goes on with a gap. -/
theorem not_goesOn_slash (t : Token) : t.goesOn '/' = false := by
  cases t <;> rfl

theorem not_goesOn_blank (t : Token) {c : Char} (h : isBlank c = true) : t.goesOn c = false := by
  have hliteral : isLiteralChar c = false := by
    by_contra hl
    rw [Bool.not_eq_false] at hl
    exact absurd h (by simp [Piece.isBlank_of_isLiteralChar hl])
  cases t with
  | word name => exact (Bool.or_eq_false_iff.mp hliteral).1
  | number literal => exact hliteral
  | text value =>
    refine beq_eq_false_iff_ne.mpr ?_
    rintro rfl
    exact absurd h (by decide)
  | _ => rfl

end Token

/-- No token goes on with what may stand between tokens. -/
theorem Filler.stops (t : Token) (f : Filler) (rest : List Char) :
    Stops t.goesOn (f.chars ++ rest) := by
  cases f with
  | blank c h => exact Text.stops_cons.mpr (t.not_goesOn_blank h)
  | lineComment body h => exact Text.stops_cons.mpr t.not_goesOn_slash
  | blockComment body h => exact Text.stops_cons.mpr t.not_goesOn_slash

theorem stops_gap (t : Token) (hg : gap ≠ []) (rest : List Char) :
    Stops t.goesOn (gapChars gap ++ rest) := by
  obtain ⟨f, more, rfl⟩ := List.exists_cons_of_ne_nil hg
  rw [gapChars, List.flatMap_cons, List.append_assoc]
  exact f.stops t _

theorem LastGap.stops (t : Token) (h : LastGap last) : Stops t.goesOn last := by
  cases h with
  | whole gap =>
    cases gap with
    | nil => exact Text.stops_nil
    | cons f gap => exact f.stops t _
  | comment gap h =>
    cases gap with
    | nil => exact Text.stops_cons.mpr t.not_goesOn_slash
    | cons f gap =>
      rw [gapChars, List.flatMap_cons, List.append_assoc]
      exact f.stops t _

theorem writes_gap (gap : List Filler) : Writes (gapChars gap) [] := by
  induction gap with
  | nil => exact writes_nil
  | cons f gap ih => exact (writes_filler f).append ih

theorem LastGap.lexes (h : LastGap last) : Lexes last [] := by
  cases h with
  | whole gap => exact (writes_gap gap).lexes
  | @comment gap body h =>
    have hend : ∀ c ∈ ([] : List Char).head?, c = '\n' := by simp
    have hread := Piece.read_lineComment h hend
    rw [List.append_nil] at hread
    refine writes_gap gap _ [] (lexes_gap hread ?_)
    rw [List.drop_of_length_le (by simp)]
    exact lexes_nil

/-- Wherever the tokens are laid out, with a gap in front of each but the first, they are read. -/
theorem lexes_layOut (hp : ∀ row ∈ rows, row.2.Proper) (hg : ∀ row ∈ rows.tail, row.1 ≠ [])
    (hl : LastGap last) : Lexes (layOut rows ++ last) (rows.map Prod.snd) := by
  induction rows with
  | nil => exact hl.lexes
  | cons row rows ih =>
    obtain ⟨gap, t⟩ := row
    obtain ⟨ht, hp⟩ := List.forall_mem_cons.mp hp
    have hrest : Lexes (layOut rows ++ last) (rows.map Prod.snd) :=
      ih hp fun row hm => hg row (List.mem_of_mem_tail hm)
    have hstops : Stops t.goesOn (layOut rows ++ last) := by
      cases rows with
      | nil => exact hl.stops t
      | cons next rows =>
        obtain ⟨gap', t'⟩ := next
        rw [layOut_cons, List.append_assoc]
        exact stops_gap t (hg _ List.mem_cons_self) _
    rw [layOut_cons, List.append_assoc, List.append_assoc]
    exact writes_gap gap _ _ (lexes_written ht hstops hrest)

/-- The tokens of a text, laid out in any other way, are the tokens of the text made from them. -/
theorem lex_layOut {text : String} {ls : Lexemes} (h : lex text = .ok ls)
    (hrows : rows.map Prod.snd = ls.list.map Lexeme.token) (hg : ∀ row ∈ rows.tail, row.1 ≠ [])
    (hl : LastGap last) : ∃ ls', lex (.ofList (layOut rows ++ last)) = .ok ls' ∧
      ls'.list.map Lexeme.token = ls.list.map Lexeme.token := by
  have hp : ∀ row ∈ rows, row.2.Proper := by
    intro row hm
    have hm : row.2 ∈ ls.list.map Lexeme.token := hrows ▸ List.mem_map_of_mem hm
    obtain ⟨l, hl, heq⟩ := List.mem_map.mp hm
    rw [← heq]
    exact proper_of_lexFrom h l hl
  rw [lex, String.toList_ofList, ← hrows]
  exact lexes_layOut hp hg hl .start

/-- Stars and quotes in comments end nothing, and the last comment needs no end of its line. -/
theorem lex_layOut_commented : ∃ ls, lex "x=\"a\"\"\";" = .ok ls ∧
    ∃ ls', lex "/* \" */x/***/=// =\n\"a\"\"\"\t;//" = .ok ls' ∧
      ls'.list.map Lexeme.token = ls.list.map Lexeme.token := by
  have h : lex "x=\"a\"\"\";" = .ok ⟨[⟨.word "x", ⟨0, 1, 1⟩⟩, ⟨.assign, ⟨1, 1, 2⟩⟩,
      ⟨.text "a\"", ⟨2, 1, 3⟩⟩, ⟨.semicolon, ⟨7, 1, 8⟩⟩], ⟨8, 1, 9⟩⟩ := by decide +kernel
  have hrows : List.map Prod.snd [([.blockComment [' ', '"', ' '] (by decide)], .word "x"),
      ([Filler.blockComment ['*'] (by decide)], Token.assign),
      ([.lineComment [' ', '='] (by decide)], .text "a\""),
      ([.blank '\t' (by decide)], .semicolon)] =
      [.word "x", .assign, .text "a\"", .semicolon] := rfl
  have hbody : '\n' ∉ ([] : List Char) := List.not_mem_nil
  have hread := lex_layOut h hrows (by simp) (.comment [] hbody)
  exact ⟨_, h, hread⟩

end Overlay
