import Overlay.Text.Colour
import Overlay.Proofs.Text
import Mathlib.Tactic.Common

/-! Texts without their colour codes. Codes do not overlap, so one pass takes out exactly those that
stand in a text. But taking out a code joins what is in front of it to what is behind it, and there
another code can come about. -/
namespace Overlay.Text.Colour

def IsCode (cs : List Char) : Prop :=
  ∃ params, (∀ c ∈ params, isParameter c = true) ∧ cs = '\x1b' :: '[' :: (params ++ ['m'])

def Coded (cs : List Char) : Prop := ∃ code, IsCode code ∧ code <+: cs

def HasCode (cs : List Char) : Prop := ∃ code, IsCode code ∧ code <:+: cs

/-- The beginning of a code, but not a whole one. -/
def Opening (cs : List Char) : Prop := cs ≠ [] ∧ ∃ more, more ≠ [] ∧ IsCode (cs ++ more)

/-- Behind the beginning of a code stands a whole one, and what is left behind that one completes
the beginning. -/
def Hides (cs : List Char) : Prop :=
  ∃ front opening code rest, cs = front ++ (opening ++ (code ++ rest)) ∧
    Opening opening ∧ IsCode code ∧ Coded (opening ++ strip rest)

variable {code opening cs rest : List Char} {c : Char}

theorem not_isParameter_m : isParameter 'm' = false := by decide

/-- Behind digits and semicolons the letter m ends a code. -/
theorem afterCode_eq_some {params : List Char} (hp : ∀ c ∈ params, isParameter c = true) :
    afterCode? (params ++ 'm' :: rest) = some rest := by
  rw [afterCode?, dropWhile_run hp (stops_cons.mpr not_isParameter_m)]
  rfl

/-- Conversely, a code that ends has them and the letter. -/
theorem exists_of_afterCode (h : afterCode? cs = some rest) :
    ∃ params, (∀ c ∈ params, isParameter c = true) ∧ cs = params ++ 'm' :: rest := by
  obtain ⟨params, behind, rfl, hp, hs⟩ := exists_run isParameter cs
  refine ⟨params, hp, ?_⟩
  rw [afterCode?, dropWhile_run hp hs] at h
  split at h
  · rw [Option.some.inj h]
  · cases h

theorem IsCode.ne_nil (h : IsCode code) : code ≠ [] := by
  obtain ⟨params, -, rfl⟩ := h
  exact List.cons_ne_nil _ _

/-- Only the first character of a code is an escape. -/
theorem IsCode.first (h : IsCode code) : ∃ tail, code = '\x1b' :: tail ∧ '\x1b' ∉ tail := by
  obtain ⟨params, hp, rfl⟩ := h
  refine ⟨_, rfl, ?_⟩
  have hparams : '\x1b' ∉ params := fun hm => absurd (hp _ hm) (by decide)
  simp [hparams]

/-- Only the last character of a code is the letter that ends it. -/
theorem IsCode.last (h : IsCode code) : ∃ init, code = init ++ ['m'] ∧ 'm' ∉ init := by
  obtain ⟨params, hp, rfl⟩ := h
  refine ⟨'\x1b' :: '[' :: params, rfl, ?_⟩
  have hparams : 'm' ∉ params := fun hm => absurd (hp _ hm) (by decide)
  simp [hparams]

/-- The beginning of a code does not have the letter that ends one. -/
theorem Opening.not_mem_m (h : Opening opening) : 'm' ∉ opening := by
  obtain ⟨-, more, hmore, hcode⟩ := h
  obtain ⟨init, hinit, hm⟩ := hcode.last
  obtain ⟨behind, last, rfl⟩ := (List.eq_nil_or_concat more).resolve_left hmore
  rw [List.concat_eq_append, ← List.append_assoc] at hinit
  obtain ⟨hinit, -⟩ := List.append_inj' hinit rfl
  exact fun hmem => hm (hinit ▸ List.mem_append_left behind hmem)

theorem Opening.first (h : Opening opening) : ∃ tail, opening = '\x1b' :: tail := by
  obtain ⟨hne, more, -, hcode⟩ := h
  obtain ⟨tail, htail, -⟩ := hcode.first
  obtain ⟨c, cs, rfl⟩ := List.exists_cons_of_ne_nil hne
  obtain ⟨rfl, -⟩ := List.cons.inj htail
  exact ⟨cs, rfl⟩

theorem not_hasCode_nil : ¬ HasCode [] := by
  rintro ⟨code, hc, hi⟩
  exact hc.ne_nil (List.infix_nil.mp hi)

theorem hasCode_cons : HasCode (c :: cs) ↔ Coded (c :: cs) ∨ HasCode cs := by
  simp only [HasCode, Coded, List.infix_cons_iff, and_or_left, exists_or]

theorem Coded.hasCode (h : Coded cs) : HasCode cs := by
  obtain ⟨code, hc, hp⟩ := h
  exact ⟨code, hc, hp.isInfix⟩

theorem HasCode.append_left (h : HasCode cs) (front : List Char) : HasCode (front ++ cs) := by
  obtain ⟨code, hc, hi⟩ := h
  exact ⟨code, hc, hi.trans (List.suffix_append front cs).isInfix⟩

theorem coded_append (h : IsCode code) : Coded (code ++ cs) := ⟨code, h, List.prefix_append code cs⟩

theorem Coded.append (h : Coded cs) (more : List Char) : Coded (cs ++ more) := by
  obtain ⟨code, hc, hp⟩ := h
  exact ⟨code, hc, hp.trans (List.prefix_append cs more)⟩

/-- A code that begins in a text and does not end in it begins with the whole text. -/
theorem opening_of_coded (hne : cs ≠ []) (hn : ¬ Coded cs) (hc : Coded (cs ++ rest)) :
    Opening cs := by
  obtain ⟨code, hcode, hp⟩ := hc
  rcases List.prefix_or_prefix_of_prefix hp (List.prefix_append _ _) with hle | ⟨more, rfl⟩
  · exact absurd ⟨code, hcode, hle⟩ hn
  · refine ⟨hne, more, ?_, hcode⟩
    rintro rfl
    rw [List.append_nil] at hcode
    exact hn ⟨cs, hcode, List.prefix_rfl⟩

theorem Opening.not_hasCode (h : Opening opening) : ¬ HasCode opening := by
  rintro ⟨code, hc, hi⟩
  obtain ⟨init, rfl, -⟩ := hc.last
  exact h.not_mem_m (hi.subset (by simp))

theorem strip_nil : strip [] = [] := strip.eq_1

theorem strip_marked (cs : List Char) : strip ('\x1b' :: '[' :: cs) =
    match afterCode? cs with
    | some rest => strip rest
    | none => '\x1b' :: '[' :: strip cs := by
  rw [strip.eq_2]
  split <;> rename_i heq <;> simp only [heq]

theorem strip_code (h : IsCode code) : strip (code ++ cs) = strip cs := by
  obtain ⟨params, hp, rfl⟩ := h
  have hafter : afterCode? (params ++ 'm' :: cs) = some cs := afterCode_eq_some hp
  have hcode : '\x1b' :: '[' :: (params ++ ['m']) ++ cs =
      '\x1b' :: '[' :: (params ++ 'm' :: cs) := by
    simp
  rw [hcode, strip_marked, hafter]

theorem strip_cons (h : ¬ Coded (c :: cs)) : strip (c :: cs) = c :: strip cs := by
  by_cases hm : ∃ ds, c = '\x1b' ∧ cs = '[' :: ds
  · -- an escape and a bracket that begin no code are passed in one step
    obtain ⟨ds, rfl, rfl⟩ := hm
    have hbracket : strip ('[' :: ds) = '[' :: strip ds := strip.eq_3 _ _ (by simp)
    rw [strip_marked, hbracket]
    cases hafter : afterCode? ds with
    | none => rfl
    | some rest =>
      obtain ⟨params, hp, rfl⟩ := exists_of_afterCode hafter
      exact absurd ⟨_, ⟨params, hp, rfl⟩, rest, by simp⟩ h
  · exact strip.eq_3 c cs fun ds hc hcs => hm ⟨ds, hc, hcs⟩

/-- A text is empty, or a code stands in front of the rest, or a character at which no code
begins. -/
@[elab_as_elim]
theorem strip_induction {P : List Char → Prop} (nil : P [])
    (code : ∀ code cs, IsCode code → P cs → P (code ++ cs))
    (cons : ∀ c cs, ¬ Coded (c :: cs) → P cs → P (c :: cs)) (cs : List Char) : P cs := by
  induction hn : cs.length using Nat.strong_induction_on generalizing cs with
  | _ n ih =>
    cases cs with
    | nil => exact nil
    | cons c cs =>
      by_cases hc : Coded (c :: cs)
      · obtain ⟨front, hf, rest, hrest⟩ := hc
        have hpos : 0 < front.length := List.length_pos_iff.mpr hf.ne_nil
        have hlength := congrArg List.length hrest
        rw [List.length_append, hn] at hlength
        rw [← hrest]
        exact code front rest hf (ih rest.length (by omega) rest rfl)
      · exact cons c cs hc (ih cs.length (by rw [← hn]; exact Nat.lt_succ_self _) cs rfl)

theorem strip_of_not_hasCode (h : ¬ HasCode cs) : strip cs = cs := by
  induction cs using strip_induction with
  | nil => exact strip_nil
  | code code cs hc ih => exact absurd (coded_append hc).hasCode h
  | cons c cs hc ih =>
    rw [hasCode_cons, not_or] at h
    rw [strip_cons hc, ih h.2]

theorem length_strip_le (cs : List Char) : (strip cs).length ≤ cs.length := by
  induction cs using strip_induction with
  | nil => rw [strip_nil]
  | code code cs hc ih =>
    rw [strip_code hc, List.length_append]
    omega
  | cons c cs hc ih =>
    rw [strip_cons hc, List.length_cons, List.length_cons]
    omega

theorem length_strip_lt (h : HasCode cs) : (strip cs).length < cs.length := by
  induction cs using strip_induction with
  | nil => exact absurd h not_hasCode_nil
  | code code cs hc ih =>
    have hpos : 0 < code.length := List.length_pos_iff.mpr hc.ne_nil
    have hle := length_strip_le cs
    rw [strip_code hc, List.length_append]
    omega
  | cons c cs hc ih =>
    have hlt := ih ((hasCode_cons.mp h).resolve_left hc)
    rw [strip_cons hc, List.length_cons, List.length_cons]
    omega

/-- Exactly the texts without codes stay as they are. -/
theorem strip_eq_self_iff : strip cs = cs ↔ ¬ HasCode cs :=
  ⟨fun h hc => Nat.lt_irrefl _ (h ▸ length_strip_lt hc), strip_of_not_hasCode⟩

/-- No code goes on over an escape. -/
theorem coded_of_escape (h : Coded (c :: rest ++ '\x1b' :: cs)) : Coded (c :: rest) := by
  obtain ⟨code, hcode, behind, hbehind⟩ := h
  rcases List.append_eq_append_iff.mp hbehind with ⟨more, hmore, -⟩ | ⟨further, hfurther, hcs⟩
  · exact ⟨code, hcode, more, hmore.symm⟩
  · cases further with
    | nil => exact ⟨code, hcode, [], by simpa using hfurther⟩
    | cons d further =>
      obtain ⟨tail, rfl, hescape⟩ := hcode.first
      obtain ⟨rfl, -⟩ := List.cons.inj hcs
      obtain ⟨-, rfl⟩ := List.cons.inj hfurther
      exact absurd (by simp) hescape

/-- An escape begins anew, so a text can be cut in front of it. -/
theorem strip_append_escape (front cs : List Char) :
    strip (front ++ '\x1b' :: cs) = strip front ++ strip ('\x1b' :: cs) := by
  induction front using strip_induction with
  | nil => rw [strip_nil, List.nil_append, List.nil_append]
  | code code front hc ih => rw [List.append_assoc, strip_code hc, strip_code hc, ih]
  | cons c front hc ih =>
    have hjoined : ¬ Coded (c :: front ++ '\x1b' :: cs) := mt coded_of_escape hc
    rw [List.cons_append] at hjoined ⊢
    rw [strip_cons hjoined, strip_cons hc, ih, List.cons_append]

/-- What is left of the two parts around a code makes a code. -/
theorem hasCode_strip_of_hides (h : Hides cs) : HasCode (strip cs) := by
  obtain ⟨front, opening, code, rest, rfl, ho, hc, hcoded⟩ := h
  obtain ⟨tail, rfl⟩ := ho.first
  obtain ⟨behind, rfl, -⟩ := hc.first
  have hstrip : strip (front ++ ('\x1b' :: tail ++ ('\x1b' :: behind ++ rest))) =
      strip front ++ ('\x1b' :: tail ++ strip rest) := by
    calc strip (front ++ ('\x1b' :: tail ++ ('\x1b' :: behind ++ rest)))
      _ = strip front ++ strip ('\x1b' :: tail ++ ('\x1b' :: behind ++ rest)) :=
        strip_append_escape front _
      _ = strip front ++ (strip ('\x1b' :: tail) ++ strip ('\x1b' :: behind ++ rest)) :=
        congrArg (strip front ++ ·) (strip_append_escape _ (behind ++ rest))
      _ = strip front ++ ('\x1b' :: tail ++ strip rest) := by
        rw [strip_of_not_hasCode ho.not_hasCode, strip_code hc]
  rw [hstrip]
  exact hcoded.hasCode.append_left _

theorem Hides.append_left (h : Hides cs) (front : List Char) : Hides (front ++ cs) := by
  obtain ⟨front', opening, code, rest, rfl, h⟩ := h
  exact ⟨front ++ front', opening, code, rest, by simp, h⟩

/-- Where the beginning of a code is completed only after codes have been taken out, one of them
stands directly behind the beginning or behind a longer one. -/
theorem hides_of_completed (ho : Opening opening) (hn : ¬ Coded (opening ++ cs))
    (hc : Coded (opening ++ strip cs)) : Hides (opening ++ cs) := by
  induction cs using strip_induction generalizing opening with
  | nil =>
    rw [strip_nil] at hc
    exact absurd hc hn
  | code code cs hcode ih =>
    rw [strip_code hcode] at hc
    exact ⟨[], opening, code, cs, rfl, ho, hcode, hc⟩
  | cons c cs hfront ih =>
    have hlonger (more : List Char) : opening ++ c :: more = (opening ++ [c]) ++ more := by simp
    rw [strip_cons hfront, hlonger] at hc
    rw [hlonger] at hn ⊢
    have hopening : Opening (opening ++ [c]) :=
      opening_of_coded (by simp) (fun h => hn (h.append cs)) hc
    exact ih hopening hn hc

/-- Conversely, a code that is left has come about around another one. -/
theorem hides_of_hasCode_strip (h : HasCode (strip cs)) : Hides cs := by
  induction cs using strip_induction with
  | nil => exact absurd (strip_nil ▸ h) not_hasCode_nil
  | code code cs hc ih =>
    rw [strip_code hc] at h
    exact (ih h).append_left code
  | cons c cs hc ih =>
    rw [strip_cons hc] at h
    rcases hasCode_cons.mp h with hfront | hbehind
    · have ho : Opening [c] :=
        opening_of_coded (List.cons_ne_nil _ _) (fun h => hc (h.append cs)) hfront
      exact hides_of_completed ho hc hfront
    · exact (ih hbehind).append_left [c]

theorem hasCode_strip_iff : HasCode (strip cs) ↔ Hides cs :=
  ⟨hides_of_hasCode_strip, hasCode_strip_of_hides⟩

/-- Texts without codes, and no others, are left as they are. What is left of a text has a code
exactly if the text hides one, and exactly then taking out the codes once more makes a
difference. -/
theorem plain_clean_iff (text : String) :
    (plain text = text ↔ ¬ HasCode text.toList) ∧
      (¬ HasCode (plain text).toList ↔ ¬ Hides text.toList) ∧
      (plain (plain text) = plain text ↔ ¬ Hides text.toList) := by
  have hself (text : String) : plain text = text ↔ ¬ HasCode text.toList := by
    rw [← strip_eq_self_iff, plain, ← String.toList_inj, String.toList_ofList]
  have hclean : ¬ HasCode (plain text).toList ↔ ¬ Hides text.toList := by
    rw [plain, String.toList_ofList, hasCode_strip_iff]
  exact ⟨hself text, hclean, (hself (plain text)).trans hclean⟩

/-- The code in the middle is taken out, and the characters around it become one. -/
theorem code_left_behind :
    let text := "\x1b\x1b[m[m"
    plain text = "\x1b[m" ∧ HasCode (plain text).toList ∧ plain (plain text) ≠ plain text := by
  intro text
  have hleft : plain text = "\x1b[m" := by decide +kernel
  have hnone : plain "\x1b[m" = "" := by decide +kernel
  refine ⟨hleft, ?_, ?_⟩
  · rw [hleft]
    exact ⟨"\x1b[m".toList, ⟨[], by simp, by decide⟩, List.infix_rfl⟩
  · rw [hleft, hnone]
    decide

end Overlay.Text.Colour
