import Overlay.Proofs.Token.Lex
import Overlay.Proofs.Tree
import Overlay.Tree.Render

namespace Overlay
open Text (isBlank)
open Fragment (classKeyword)

def Scalar.token : Scalar → Token
  | number literal => .number literal
  | text value => .text value
  | flag value => .word (flagText value)

def itemTokens : List Scalar → List Token
  | [] => [.closeBrace]
  | [s] => [s.token, .closeBrace]
  | s :: t :: items => s.token :: .comma :: itemTokens (t :: items)

def Value.tokens : Value → List Token
  | scalar s => [.assign, s.token, .semicolon]
  | array items =>
    .openBracket :: .closeBracket :: .assign :: .openBrace :: (itemTokens items ++ [.semicolon])

def Member.tokens (m : Member) : List Token := .word m.name :: m.value.tokens

namespace Class

mutual

def tokens : Class → List Token
  | ⟨name, _, properties, children⟩ =>
    .word classKeyword :: .word name :: .openBrace ::
      (properties.flatMap Member.tokens ++ (tokensOfAll children ++ [.closeBrace, .semicolon]))

def tokensOfAll : List Class → List Token
  | [] => []
  | c :: cs => tokens c ++ tokensOfAll cs

end

theorem tokensOfAll_eq (cs : List Class) : tokensOfAll cs = cs.flatMap tokens := by
  induction cs with
  | nil => rfl
  | cons c cs ih => rw [tokensOfAll, List.flatMap_cons, ih]

theorem linesOfAll_eq (pad : String) (cs : List Class) :
    linesOfAll pad cs = cs.flatMap (lines pad) := by
  induction cs with
  | nil => rfl
  | cons c cs ih => rw [linesOfAll, List.flatMap_cons, ih]

end Class

theorem Scalar.written_eq (s : Scalar) : s.written = s.token.written := by
  cases s <;> rfl

theorem Scalar.token_proper {s : Scalar} (h : s.Proper) : s.token.Proper := by
  cases s with
  | number literal => exact h
  | text value => exact h
  | flag value =>
    cases value with
    | true => exact isWord_iff.mpr (by decide)
    | false => exact isWord_iff.mpr (by decide)

variable {c : Char} {cs : List Char} {ts : List Token}

/-- A scalar ends before a separator. -/
theorem writes_scalar {s : Scalar} (h : s.Proper) (hw : Writes (c :: cs) ts)
    (hc : c = ';' ∨ c = ',' ∨ c = '\x7d') :
    Writes (s.written.toList ++ c :: cs) (s.token :: ts) := by
  rw [Scalar.written_eq]
  apply hw.token (Scalar.token_proper h)
  cases s <;> rcases hc with rfl | rfl | rfl <;> rfl

theorem writes_blank (hb : isBlank c = true) (hw : Writes cs ts) : Writes (c :: cs) ts := by
  have h : Writes [c] [] := writes_blanks (by simpa using hb)
  exact h.append hw

theorem writes_space (hw : Writes cs ts) : Writes (' ' :: cs) ts := writes_blank (by decide) hw

theorem writes_single_then {t : Token} (h : ∀ cs, Piece.read c cs = .ok (.token t, 0))
    (hw : Writes cs ts) : Writes (c :: cs) (t :: ts) := (writes_single h).append hw

theorem writes_assign (hw : Writes cs ts) :
    Writes (' ' :: '=' :: ' ' :: cs) (.assign :: ts) :=
  writes_space (writes_single_then (fun _ => rfl) (writes_space hw))

/-- Elements with commas between them, and their closing brace. -/
theorem writes_items {items : List Scalar} (h : ∀ s ∈ items, s.Proper) (hw : Writes cs ts) :
    Writes ((", ".intercalate (items.map Scalar.written)).toList ++ '\x7d' :: cs)
      (itemTokens items ++ ts) := by
  have hclose : Writes ('\x7d' :: cs) (.closeBrace :: ts) := writes_single_then (fun _ => rfl) hw
  induction items with
  | nil => exact hclose
  | cons s items ih =>
    obtain ⟨hs, hitems⟩ := List.forall_mem_cons.mp h
    cases items with
    | nil => exact writes_scalar hs hclose (by simp)
    | cons t items =>
      have hcomma := writes_single_then (c := ',') (t := .comma) (fun _ => rfl)
        (writes_space (ih hitems))
      have hchars :
          (", ".intercalate ((s :: t :: items).map Scalar.written)).toList ++ '\x7d' :: cs =
            s.written.toList ++ ',' :: ' ' ::
              ((", ".intercalate ((t :: items).map Scalar.written)).toList ++ '\x7d' :: cs) := by
        rw [List.map_cons, List.map_cons, String.intercalate_cons_cons, ← List.map_cons]
        simp
      rw [hchars]
      exact writes_scalar hs hcomma (by simp)

theorem writes_property {m : Member} (h : m.Proper) (hw : Writes cs ts) :
    Writes ((Class.propertyLine m).toList ++ cs) (m.tokens ++ ts) := by
  have hend := writes_single_then (c := ';') (t := .semicolon) (fun _ => rfl) hw
  obtain ⟨name, value⟩ := m
  cases value with
  | scalar s =>
    have hassign := writes_assign (writes_scalar h.value hend (by simp))
    have hname := hassign.token (t := .word name) h.name.1 rfl
    have hchars : (Class.propertyLine ⟨name, .scalar s⟩).toList ++ cs =
        (Token.word name).written.toList ++
          ' ' :: '=' :: ' ' :: (s.written.toList ++ ';' :: cs) := by
      simp [Class.propertyLine, Value.isArray, Value.written, Token.written, toString]
    rw [hchars]
    exact hname
  | array items =>
    have hitems := writes_single_then (c := '\x7b') (t := .openBrace) (fun _ => rfl)
      (writes_items h.value hend)
    have hbrackets := writes_single_then (c := '[') (t := .openBracket) (fun _ => rfl)
      (writes_single_then (c := ']') (t := .closeBracket) (fun _ => rfl) (writes_assign hitems))
    have hname := hbrackets.token (t := .word name) h.name.1 rfl
    have hchars : (Class.propertyLine ⟨name, .array items⟩).toList ++ cs =
        (Token.word name).written.toList ++ '[' :: ']' :: ' ' :: '=' :: ' ' :: '\x7b' ::
          ((", ".intercalate (items.map Scalar.written)).toList ++ '\x7d' :: ';' :: cs) := by
      simp [Class.propertyLine, Value.isArray, Value.written, Token.written, toString]
    have htokens : Member.tokens ⟨name, .array items⟩ ++ ts = .word name :: .openBracket ::
        .closeBracket :: .assign :: .openBrace :: (itemTokens items ++ .semicolon :: ts) := by
      simp [Member.tokens, Value.tokens]
    rw [hchars, htokens]
    exact hname

/-- The head of a class; a base stands in a comment. -/
theorem writes_header {name : String} {base : Option String} (hn : IsName name)
    (hb : ∀ b ∈ base, IsName b) (hw : Writes (c :: cs) ts) (hc : c = ' ' ∨ c = '\n') :
    Writes ((Class.header name base).toList ++ c :: cs)
      (.word classKeyword :: .word name :: ts) := by
  have hclass : IsWord classKeyword := isWord_iff.mpr (by decide)
  cases base with
  | none =>
    have hname := hw.token (t := .word name) hn.1 (by rcases hc with rfl | rfl <;> rfl)
    have hkeyword := (writes_space hname).token
      (t := .word classKeyword) hclass rfl
    have hchars : (Class.header name none).toList ++ c :: cs =
        (Token.word classKeyword).written.toList ++ ' ' ::
          ((Token.word name).written.toList ++ c :: cs) := by
      simp [Class.header, Token.written, classKeyword, toString]
    rw [hchars]
    exact hkeyword
  | some base =>
    -- an identifier has no star in it, so the comment ends where it should
    obtain ⟨b, bs, hbase, hstart, hrest⟩ := (hb base rfl).1
    have hstar : '*' ∉ " inherits ".toList ++ (base.toList ++ [' ']) := by
      have hword : '*' ∉ base.toList := by
        rw [hbase, List.mem_cons, not_or]
        refine ⟨?_, fun hm => absurd (hrest _ hm) (by decide)⟩
        rintro rfl
        exact absurd hstart (by decide)
      simp [hword]
    have hcomment := writes_space ((writes_comment hstar).append hw)
    have hname := hcomment.token (t := .word name) hn.1 rfl
    have hkeyword := (writes_space hname).token
      (t := .word classKeyword) hclass rfl
    have hchars : (Class.header name (some base)).toList ++ c :: cs =
        (Token.word classKeyword).written.toList ++ ' ' ::
          ((Token.word name).written.toList ++ ' ' :: ('/' :: '*' ::
            (" inherits ".toList ++ (base.toList ++ [' ']) ++ ['*', '/']) ++ c :: cs)) := by
      simp [Class.header, Token.written, classKeyword, toString]
    rw [hchars]
    exact hkeyword

def lineChars (lines : List String) : List Char := lines.flatMap fun l => l.toList ++ ['\n']

theorem toList_unlines (lines : List String) : (Text.unlines lines).toList = lineChars lines := by
  rw [Text.unlines, String.toList_join, List.flatMap_map, lineChars]
  simp

def IsPad (pad : String) : Prop := ∀ c ∈ pad.toList, isBlank c = true

theorem isPad_deeper {pad : String} (h : IsPad pad) : IsPad (pad ++ Class.indent) := by
  intro c hc
  rw [String.toList_append] at hc
  rcases List.mem_append.mp hc with hc | hc
  · exact h c hc
  · have hspaces : Class.indent.toList.all isBlank = true := by decide
    exact List.all_eq_true.mp hspaces c hc

theorem writes_end : Writes ['\n'] [] := writes_blanks (by simp [isBlank])

/-- The end of a class and of its last line. -/
theorem writes_close : Writes ['\x7d', ';', '\n'] [.closeBrace, .semicolon] :=
  writes_single_then (fun _ => rfl) (writes_single_then (fun _ => rfl) writes_end)

/-- A line that is padded and ended writes what stands between. -/
theorem writes_padded {pad : String} (line : String) (hp : IsPad pad)
    (h : Writes (line.toList ++ ['\n']) ts) : Writes (lineChars [pad ++ line]) ts := by
  have hchars : lineChars [pad ++ line] = pad.toList ++ (line.toList ++ ['\n']) := by
    simp [lineChars]
  rw [hchars]
  exact (writes_blanks hp).append h

/-- Lines with properties stand for the tokens of all of them. -/
theorem writes_properties {pad : String} (hp : IsPad pad) {properties : List Member}
    (h : ∀ m ∈ properties, m.Proper) :
    Writes (lineChars (properties.map fun m => pad ++ Class.propertyLine m))
      (properties.flatMap Member.tokens) := by
  rw [lineChars, List.flatMap_map]
  apply writes_flatMap
  intro m hm
  have hline := writes_property (h m hm) writes_end
  rw [List.append_nil] at hline
  have hpadded := writes_padded _ hp hline
  simpa [lineChars] using hpadded

/-- The lines of a class write its tokens, whatever blanks they are indented by. -/
theorem writes_class {d : Class} (h : d.Proper) {pad : String} (hp : IsPad pad) :
    Writes (lineChars (d.lines pad)) d.tokens := by
  -- on the class; the children are one level deeper
  induction h generalizing pad with
  | @intro name base properties children hn hb hm hmk hc hck ih =>
    by_cases hempty : (properties.isEmpty && children.isEmpty) = true
    · obtain ⟨hproperties, hchildren⟩ := Bool.and_eq_true_iff.mp hempty
      obtain rfl := List.isEmpty_iff.mp hproperties
      obtain rfl := List.isEmpty_iff.mp hchildren
      have hbraces := writes_single_then (c := '\x7b') (t := .openBrace) (fun _ => rfl) writes_close
      have hheader := writes_header hn hb (writes_space hbraces) (by simp)
      have hline : (Class.header name base ++ " \x7b\x7d;").toList ++ ['\n'] =
          (Class.header name base).toList ++ [' ', '\x7b', '\x7d', ';', '\n'] := by
        simp
      have hpadded := writes_padded (Class.header name base ++ " \x7b\x7d;") hp
        (by rw [hline]; exact hheader)
      simpa [Class.lines, Class.tokens, Class.tokensOfAll, String.append_assoc] using hpadded
    · have hheader := writes_padded _ hp (writes_header hn hb writes_end (by simp))
      have hopen := writes_padded "\x7b" hp
        (writes_single_then (c := '\x7b') (t := .openBrace) (fun _ => rfl) writes_end)
      have hmembers := writes_properties (isPad_deeper hp) hm
      have hchildren : Writes (lineChars (Class.linesOfAll (pad ++ Class.indent) children))
          (Class.tokensOfAll children) := by
        rw [Class.linesOfAll_eq, Class.tokensOfAll_eq, lineChars, List.flatMap_assoc]
        exact writes_flatMap fun e he => ih e he (isPad_deeper hp)
      have hclose := writes_padded "\x7d;" hp writes_close
      have hall := hheader.append (hopen.append (hmembers.append (hchildren.append hclose)))
      rw [Class.lines, if_neg hempty]
      simpa [lineChars, Class.tokens, List.append_assoc] using hall

/-- The text of a tree consists of the tokens of its classes. -/
theorem lexes_text {t : Tree} (h : t.Proper) :
    Lexes t.text.toList (Class.tokensOfAll t.root.children) := by
  apply Writes.lexes
  rw [Tree.text, toList_unlines, Class.linesOfAll_eq, Class.tokensOfAll_eq, lineChars,
    List.flatMap_assoc]
  exact writes_flatMap fun c hc => writes_class (h.root.children c hc) (by simp [IsPad])

end Overlay
