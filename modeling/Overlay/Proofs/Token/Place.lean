import Overlay.Proofs.Token.Cut
import Overlay.Proofs.Token.Layout
import Mathlib.Data.List.DropRight
import Mathlib.Data.String.Basic

/-! Where the tokens of a text are. Each place tells what is in front of it: its bytes, its line
ends, and the characters behind the last of these. At the place of a token stand the characters of
the token; between tokens, in front of the first and behind the last, there are gaps only. So the
lexemes account for every character of the text. -/
namespace Overlay
open Text (Position)

namespace Text.Position

/-- The place behind some characters: how many bytes they take and, counted from one, the line ends
among them and the characters behind the last of these. -/
structure Behind (front : List Char) (p : Position) : Prop where
  offset : p.offset = (String.ofList front).utf8ByteSize
  line : p.line = 1 + front.count '\n'
  column : p.column = 1 + (front.rtakeWhile (· ≠ '\n')).length

variable {front : List Char} {p : Position}

theorem behind_start : start.Behind [] := ⟨rfl, rfl, rfl⟩

/-- A place goes with the characters in front of it, character by character. -/
theorem Behind.next (h : p.Behind front) (c : Char) : (p.next c).Behind (front ++ [c]) := by
  have hsize : (String.ofList (front ++ [c])).utf8ByteSize =
      (String.ofList front).utf8ByteSize + c.utf8Size := by
    rw [String.ofList_append, String.utf8ByteSize_append, ← String.singleton_eq_ofList,
      String.utf8ByteSize_singleton]
  obtain ⟨hoffset, hline, hcolumn⟩ := h
  by_cases hc : c = '\n'
  · subst hc
    refine ⟨?_, ?_, ?_⟩
    · rw [hsize, ← hoffset]
      rfl
    · rw [List.count_append, List.count_singleton_self, ← Nat.add_assoc, ← hline]
      rfl
    · rw [List.rtakeWhile_concat_neg _ _ _ (by simp)]
      rfl
  · rw [Position.next, if_neg hc]
    refine ⟨?_, ?_, ?_⟩
    · rw [hsize, ← hoffset]
    · rw [List.count_append, List.count_singleton, beq_false_of_ne hc, hline]
      rfl
    · rw [List.rtakeWhile_concat_pos _ _ _ (by simpa using hc), List.length_append, hcolumn]
      rfl

theorem Behind.advance (h : p.Behind front) (cs : List Char) :
    (p.advance cs).Behind (front ++ cs) := by
  induction cs generalizing front p with
  | nil => rwa [List.append_nil]
  | cons c cs ih =>
    have hnext := ih (h.next c)
    rwa [List.append_assoc] at hnext

/-- A place in a text is never within a character. -/
theorem Behind.isValid (h : p.Behind front) {text : String} {rest : List Char}
    (ht : text.toList = front ++ rest) : String.Pos.Raw.IsValid text ⟨p.offset⟩ := by
  refine String.Pos.Raw.isValid_iff_exists_append.mpr ⟨.ofList front, .ofList rest, ?_, ?_⟩
  · rw [← String.ofList_append, ← ht, String.ofList_toList]
  · rw [h.offset]
    rfl

end Text.Position

/-- A lexeme is in a text at its place: that is the place behind what is in front of it, and the
bytes of the text from there on are those of the token as it is written. -/
structure Lexeme.StandsIn (l : Lexeme) (text : String) : Prop where
  place : ∃ front rest, text.toList = front ++ (l.token.written.toList ++ rest) ∧
    l.position.Behind front
  boundary : String.Pos.Raw.IsValid text ⟨l.position.offset⟩
  slice : String.Pos.Raw.extract text ⟨l.position.offset⟩
    ⟨l.position.offset + l.token.written.utf8ByteSize⟩ = l.token.written

/-- From behind `front` on a text goes on with these lexemes, each at its place and behind a gap,
and with a last gap, behind which it stops. -/
inductive Covers : List Char → List Char → List Lexeme → Position → Prop
  | stop {front last : List Char} {p : Position} (hl : LastGap last)
      (hp : p.Behind (front ++ last)) : Covers front last [] p
  | lexeme {front rest : List Char} {l : Lexeme} {ls : List Lexeme} {stop : Position}
      (gap : List Filler) (hp : l.position.Behind (front ++ gapChars gap))
      (h : Covers (front ++ gapChars gap ++ l.token.written.toList) rest ls stop) :
      Covers front (gapChars gap ++ (l.token.written.toList ++ rest)) (l :: ls) stop

/-- The lexemes of a text tell where its tokens are, and leave out nothing but gaps. -/
structure Lexemes.Account (ls : Lexemes) (text : String) : Prop where
  covers : Covers [] text.toList ls.list ls.stop
  stands : ∀ l ∈ ls.list, l.StandsIn text
  ascending : (ls.list.map (·.position.offset) ++ [ls.stop.offset]).Pairwise (· < ·)
  stop : ls.stop.Behind text.toList
  size : ls.stop.offset = text.utf8ByteSize

/-- An error is at the place where, behind tokens and gaps, a piece begins that cannot be read. -/
structure ParseError.PointsInto (e : ParseError) (text : String) : Prop where
  place : ∃ front ls c rest, text.toList = front ++ c :: rest ∧ e.position.Behind front ∧
    Covers [] front ls e.position ∧ Piece.read c rest = .error e.reason
  boundary : String.Pos.Raw.IsValid text ⟨e.position.offset⟩

variable {front rest cs : List Char} {ls : List Lexeme} {l : Lexeme} {p q stop : Position}

/-- A lexeme at the place behind what is in front of its token stands in the text. -/
theorem Lexeme.standsIn {text : String}
    (ht : text.toList = front ++ (l.token.written.toList ++ rest))
    (hp : l.position.Behind front) : l.StandsIn text := by
  refine ⟨⟨front, rest, ht, hp⟩, hp.isValid ht, ?_⟩
  have hslice := String.extract_of_valid front l.token.written.toList rest
  rw [List.append_assoc, ← ht, ← String.utf8ByteSize_ofList, ← String.utf8ByteSize_ofList,
    String.ofList_toList, String.ofList_toList, ← hp.offset] at hslice
  exact hslice

theorem LastGap.cons {last : List Char} (h : LastGap last) (f : Filler) :
    LastGap (f.chars ++ last) := by
  cases h with
  | whole gap => exact .whole (f :: gap)
  | comment gap h =>
    rw [← List.append_assoc]
    exact .comment (f :: gap) h

namespace Covers

/-- One more filler in front is a part of the first gap. -/
theorem filler (f : Filler) (h : Covers (front ++ f.chars) rest ls stop) :
    Covers front (f.chars ++ rest) ls stop := by
  cases h with
  | stop hl hp =>
    rw [List.append_assoc] at hp
    exact .stop (hl.cons f) hp
  | @lexeme _ rest l ls _ gap hp h =>
    have hgap : front ++ gapChars (f :: gap) = front ++ f.chars ++ gapChars gap := by
      rw [gapChars, List.flatMap_cons, ← List.append_assoc]
      rfl
    have hcs : f.chars ++ (gapChars gap ++ (l.token.written.toList ++ rest)) =
        gapChars (f :: gap) ++ (l.token.written.toList ++ rest) := by
      rw [← List.append_assoc]
      rfl
    rw [← hgap] at hp h
    rw [hcs]
    exact .lexeme (f :: gap) hp h

theorem behind (h : Covers front cs ls stop) : stop.Behind (front ++ cs) := by
  induction h with
  | stop hl hp => exact hp
  | lexeme gap hp h ih => simpa only [List.append_assoc] using ih

theorem place (h : Covers front cs ls stop) (hl : l ∈ ls) : ∃ before after,
    front ++ cs = before ++ (l.token.written.toList ++ after) ∧ l.position.Behind before := by
  induction h with
  | stop => exact absurd hl List.not_mem_nil
  | @lexeme front rest m ls stop gap hp h ih =>
    rcases List.mem_cons.mp hl with rfl | hl
    · exact ⟨front ++ gapChars gap, rest, by rw [List.append_assoc], hp⟩
    · obtain ⟨before, after, heq, hbehind⟩ := ih hl
      refine ⟨before, after, ?_, hbehind⟩
      rw [← heq]
      simp only [List.append_assoc]

/-- The places of tokens that take up characters come one behind the other. -/
theorem ascending (h : Covers front cs ls stop) (hw : ∀ l ∈ ls, 0 < l.token.written.utf8ByteSize) :
    (∀ o ∈ ls.map (·.position.offset) ++ [stop.offset], (String.ofList front).utf8ByteSize ≤ o) ∧
      (ls.map (·.position.offset) ++ [stop.offset]).Pairwise (· < ·) := by
  induction h with
  | @stop front last p hl hp =>
    have hsize := hp.offset
    rw [String.ofList_append, String.utf8ByteSize_append] at hsize
    refine ⟨?_, List.pairwise_singleton _ _⟩
    intro o ho
    rw [List.mem_singleton.mp ho, hsize]
    exact Nat.le_add_right _ _
  | @lexeme front rest l ls stop gap hp h ih =>
    obtain ⟨hpos, hw⟩ := List.forall_mem_cons.mp hw
    obtain ⟨hbound, hpairs⟩ := ih hw
    have hsize := hp.offset
    rw [String.ofList_append, String.ofList_toList, String.utf8ByteSize_append, ← hp.offset]
      at hbound
    rw [String.ofList_append, String.utf8ByteSize_append] at hsize
    -- the lexemes behind it stand at later places
    have hlater : ∀ o ∈ ls.map (·.position.offset) ++ [stop.offset], l.position.offset < o := by
      intro o ho
      have := hbound o ho
      omega
    refine ⟨?_, List.pairwise_cons.mpr ⟨hlater, hpairs⟩⟩
    intro o ho
    rcases List.mem_cons.mp ho with rfl | ho
    · exact Nat.le.intro hsize.symm
    · have := hlater o ho
      omega

end Covers

/-- Going from piece to piece, every character is passed over in a token or in a gap. -/
theorem Passes.covers (h : Passes p cs ls q rest) (hp : p.Behind front) :
    ∃ pre, cs = pre ++ rest ∧ Covers front pre ls q := by
  induction h generalizing front with
  | here p cs =>
    rw [← List.append_nil front] at hp
    exact ⟨[], rfl, .stop (.whole []) hp⟩
  | @piece p q c cs rest piece n ls h hpasses ih =>
    obtain ⟨pre, hpre, hcovers⟩ := ih (hp.advance (c :: cs.take n))
    cases piece with
    | token t =>
      obtain ⟨chars, behind, rfl, rfl, hw, -⟩ := Piece.written_of_read h
      rw [List.drop_left] at hpre
      rw [List.take_left, ← hw] at hcovers
      refine ⟨gapChars [] ++ (t.written.toList ++ pre), ?_, .lexeme (l := ⟨t, p⟩) [] ?_ ?_⟩
      · rw [gapChars, List.flatMap_nil, List.nil_append, List.append_assoc, hw, hpre]
        rfl
      · rwa [gapChars, List.flatMap_nil, List.append_nil]
      · rwa [gapChars, List.flatMap_nil, List.append_nil]
    | gap =>
      rcases Piece.filler_of_read h with ⟨f, chars, behind, hf, rfl, rfl⟩ | ⟨body, hb, rfl, rfl, hn⟩
      · rw [List.drop_left] at hpre
        rw [List.take_left, ← hf] at hcovers
        refine ⟨f.chars ++ pre, ?_, hcovers.filler f⟩
        rw [List.append_assoc, ← hpre, hf]
        rfl
      · -- the comment goes to the end of the text
        rw [List.drop_of_length_le (by omega)] at hpasses
        cases hpasses
        rw [List.take_of_length_le (by omega)]
        exact ⟨_, (List.append_nil _).symm, .stop (.comment [] hb) (hp.advance _)⟩

/-- The lexemes account for a text that can be cut into tokens. In one that cannot, the error points
to the first piece that is no token and no gap. -/
theorem lex_places (text : String) : (∀ ls, lex text = .ok ls → ls.Account text) ∧
    ∀ e, lex text = .error e → e.PointsInto text := by
  constructor
  · intro ls h
    obtain ⟨pre, htext, hcovers⟩ := (passes_of_lexFrom h).covers Position.behind_start
    rw [List.append_nil] at htext
    rw [← htext] at hcovers
    -- no token is written as nothing
    have hwritten : ∀ l ∈ ls.list, 0 < l.token.written.utf8ByteSize := by
      intro l hl
      obtain ⟨c, cs, hw, -⟩ := Piece.read_written (proper_of_lexFrom h l hl) Text.stops_nil
      apply Nat.pos_of_ne_zero
      intro hzero
      rw [String.utf8ByteSize_eq_zero_iff.mp hzero] at hw
      exact absurd hw (by simp)
    have hstop := hcovers.behind
    refine ⟨hcovers, ?_, (hcovers.ascending hwritten).2, hstop, ?_⟩
    · intro l hl
      obtain ⟨before, after, heq, hp⟩ := hcovers.place hl
      exact Lexeme.standsIn heq hp
    · rw [hstop.offset, List.nil_append, String.ofList_toList]
  · intro e h
    rcases exists_passes .start text.toList with ⟨ls, hl, -⟩ | ⟨e', ls, c, rest, hl, hp, hr⟩
    · exact absurd (h.symm.trans hl) (by simp)
    · obtain rfl := Except.error.inj (h.symm.trans hl)
      obtain ⟨pre, htext, hcovers⟩ := hp.covers Position.behind_start
      exact ⟨⟨pre, ls, c, rest, htext, hcovers.behind, hcovers, hr⟩, hcovers.behind.isValid htext⟩

/-- Characters of several bytes, and a line end within a comment. -/
theorem lex_places_multibyte :
    (∃ ls, lex "x=\"ß\"/*ü\n*/;//ß" = .ok ls ∧ ls.list.length = 4 ∧ ls.stop = ⟨18, 2, 7⟩ ∧
      ls.Account "x=\"ß\"/*ü\n*/;//ß") ∧
    ∃ e, lex "\"ß\"/*ü\n*/é" = .error e ∧ e.position = ⟨11, 2, 3⟩ ∧
      e.PointsInto "\"ß\"/*ü\n*/é" := by
  have hgood : lex "x=\"ß\"/*ü\n*/;//ß" = .ok ⟨[⟨.word "x", ⟨0, 1, 1⟩⟩, ⟨.assign, ⟨1, 1, 2⟩⟩,
      ⟨.text "ß", ⟨2, 1, 3⟩⟩, ⟨.semicolon, ⟨13, 2, 3⟩⟩], ⟨18, 2, 7⟩⟩ := by decide +kernel
  have hbad : lex "\"ß\"/*ü\n*/é" = .error ⟨⟨11, 2, 3⟩, .unexpectedCharacter 'é'⟩ := by
    decide +kernel
  exact ⟨⟨_, hgood, rfl, rfl, (lex_places _).1 _ hgood⟩, _, hbad, rfl, (lex_places _).2 _ hbad⟩

end Overlay
