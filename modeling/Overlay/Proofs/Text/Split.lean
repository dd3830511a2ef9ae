import Overlay.Text.Blank
import Overlay.Text.Split
import Overlay.Proofs.Text
import Mathlib.Tactic.Common

namespace Overlay.Text

variable {separator b : Char} {cs part : List Char}

theorem splitOn_eq (separator : Char) (cs : List Char) :
    splitOn separator cs = cs.splitOn separator := by
  induction cs with
  | nil => rfl
  | cons c cs ih =>
    rw [splitOn, ih, List.splitOn, List.splitOn, List.splitOnP_cons_eq_if_modifyHead]
    simp only [beq_iff_eq]
    split_ifs with hc
    · rfl
    · cases hrest : List.splitOnP (fun x => x == separator) cs with
      | nil => exact absurd hrest (List.splitOnP_ne_nil _ cs)
      | cons part parts => rfl

/-- Parts without separators are found again when they are put together. -/
theorem splitOn_intercalate {parts : List (List Char)} (h : ∀ part ∈ parts, separator ∉ part)
    (hn : parts ≠ []) : splitOn separator ([separator].intercalate parts) = parts := by
  rw [splitOn_eq]
  exact List.splitOn_intercalate separator h hn

theorem joinWith_eq (separator : Char) (parts : List (List Char)) :
    joinWith separator parts = [separator].intercalate parts := by
  induction parts with
  | nil => rfl
  | cons part parts ih =>
    cases parts with
    | nil => rw [joinWith, List.intercalate_singleton]
    | cons next parts =>
      rw [joinWith, ih, List.intercalate_cons_cons]
      · simp
      · exact List.cons_ne_nil _ _

/-- Parts without separators are found again in what they are joined to. -/
theorem splitOn_joinWith {parts : List (List Char)} (h : ∀ part ∈ parts, separator ∉ part)
    (hn : parts ≠ []) : splitOn separator (joinWith separator parts) = parts := by
  rw [joinWith_eq, splitOn_intercalate h hn]

theorem splitOn_of_not_mem (h : separator ∉ cs) : splitOn separator cs = [cs] := by
  have hsplit := splitOn_intercalate (List.forall_mem_singleton.mpr h) (List.cons_ne_nil cs [])
  rwa [List.intercalate_singleton] at hsplit

theorem splitOn_snoc (h : separator ∉ part) (cs : List Char) :
    splitOn separator (cs ++ separator :: part) = splitOn separator cs ++ [part] := by
  have hone := splitOn_of_not_mem h
  rw [splitOn_eq, List.splitOn] at hone
  rw [splitOn_eq, splitOn_eq, List.splitOn, List.splitOn, ← hone]
  exact List.splitOnP_append_cons cs part (beq_self_eq_true separator)

theorem not_mem_of_mem_splitOn (h : part ∈ splitOn separator cs) : separator ∉ part := by
  induction cs generalizing part with
  | nil =>
    rw [splitOn, List.mem_singleton] at h
    exact h ▸ List.not_mem_nil
  | cons c cs ih =>
    rw [splitOn] at h
    split_ifs at h with hc
    · rcases List.mem_cons.mp h with rfl | h
      · exact List.not_mem_nil
      · exact ih h
    · cases hrest : splitOn separator cs with
      | nil => exact absurd hrest (splitOn_ne_nil separator cs)
      | cons first parts =>
        simp only [hrest] at h ih
        rcases List.mem_cons.mp h with rfl | h
        · exact List.not_mem_cons_of_ne_of_not_mem (Ne.symm hc) (ih List.mem_cons_self)
        · exact ih (List.mem_cons_of_mem first h)

/-- More characters behind a text go to its last part. -/
theorem splitOn_append (separator : Char) (cs : List Char) : ∃ init last,
    ∀ more, separator ∉ more → splitOn separator (cs ++ more) = init ++ [last ++ more] := by
  induction cs with
  | nil =>
    refine ⟨[], [], ?_⟩
    exact fun more hm => splitOn_of_not_mem hm
  | cons c cs ih =>
    obtain ⟨init, last, ih⟩ := ih
    by_cases hc : c = separator
    · refine ⟨[] :: init, last, ?_⟩
      intro more hm
      rw [List.cons_append, splitOn, if_pos hc, ih more hm, List.cons_append]
    · cases init with
      | nil =>
        refine ⟨[], c :: last, ?_⟩
        intro more hm
        rw [List.cons_append, splitOn, if_neg hc, ih more hm]
        rfl
      | cons first init =>
        refine ⟨(c :: first) :: init, last, ?_⟩
        intro more hm
        rw [List.cons_append, splitOn, if_neg hc, ih more hm]
        rfl

theorem trimChars_cons_blank (hb : isBlank b = true) (cs : List Char) :
    trimChars (b :: cs) = trimChars cs := by
  have hstart : trimStart (b :: cs) = trimStart cs := List.dropWhile_cons_of_pos hb
  rw [trimChars, hstart, trimChars]

theorem trimChars_append_blanks {blanks : List Char} (hb : ∀ c ∈ blanks, isBlank c = true)
    (cs : List Char) : trimChars (cs ++ blanks) = trimChars cs := by
  have hrun (rest : List Char) : trimStart (blanks.reverse ++ rest) = trimStart rest :=
    List.dropWhile_append_of_pos fun c hc => hb c (List.mem_reverse.mp hc)
  have hall : blanks.dropWhile isBlank = [] := List.dropWhile_eq_nil_iff.mpr hb
  rw [trimChars, trimChars, trimStart.eq_def (cs ++ blanks), List.dropWhile_append, ← trimStart,
    hall]
  split_ifs with he
  · -- nothing but blanks
    rw [List.isEmpty_iff.mp he]
  · rw [List.reverse_append, hrun]

theorem trimStart_of_stops (h : Stops isBlank cs) : trimStart cs = cs := dropWhile_stop h

/-- Nothing is cut off between characters that are not blank. -/
theorem trimChars_of_stops (hs : Stops isBlank cs) (he : Stops isBlank cs.reverse) :
    trimChars cs = cs := by
  rw [trimChars, trimStart_of_stops hs, trimStart_of_stops he, List.reverse_reverse]

theorem trimChars_of_clean (h : ∀ c ∈ cs, isBlank c = false) : trimChars cs = cs := by
  apply trimChars_of_stops
  · exact fun c hc => h c (List.mem_of_mem_head? hc)
  · exact fun c hc => h c (List.mem_reverse.mp (List.mem_of_mem_head? hc))

theorem stops_trimChars (cs : List Char) : Stops isBlank (trimChars cs) := by
  obtain ⟨blanks, hblanks⟩ := List.dropWhile_suffix isBlank (l := (trimStart cs).reverse)
  have hstart : trimStart cs = trimChars cs ++ blanks.reverse := by
    rw [trimChars, trimStart.eq_def (trimStart cs).reverse, ← List.reverse_append, hblanks,
      List.reverse_reverse]
  apply Stops.of_append
  rw [← hstart]
  exact stops_dropWhile isBlank cs

theorem stops_reverse_trimChars (cs : List Char) : Stops isBlank (trimChars cs).reverse := by
  rw [trimChars, List.reverse_reverse]
  exact stops_dropWhile isBlank _

theorem trimChars_trimChars (cs : List Char) : trimChars (trimChars cs) = trimChars cs :=
  trimChars_of_stops (stops_trimChars cs) (stops_reverse_trimChars cs)

/-- A text is what trimming leaves of it, with blanks around. -/
theorem exists_blanks (cs : List Char) : ∃ front back, cs = front ++ (trimChars cs ++ back) ∧
    (∀ c ∈ front, isBlank c = true) ∧ ∀ c ∈ back, isBlank c = true := by
  have hrun (ds : List Char) : ds = ds.takeWhile isBlank ++ trimStart ds :=
    List.takeWhile_append_dropWhile.symm
  refine ⟨cs.takeWhile isBlank, ((trimStart cs).reverse.takeWhile isBlank).reverse, ?_, ?_, ?_⟩
  · rw [trimChars, ← List.reverse_append, ← hrun, List.reverse_reverse, ← hrun]
  · exact fun c hc => List.mem_takeWhile_imp hc
  · exact fun c hc => List.mem_takeWhile_imp (List.mem_reverse.mp hc)

/-- The trimmed parts of a text are those of the trimmed text. -/
theorem map_trim_splitOn (hs : isBlank separator = false) (cs : List Char) :
    (splitOn separator (trimChars cs)).map trimChars = (splitOn separator cs).map trimChars := by
  have hblank (blanks : List Char) (hb : ∀ c ∈ blanks, isBlank c = true) : separator ∉ blanks := by
    intro hm
    rw [hb separator hm] at hs
    exact Bool.noConfusion hs
  -- no blank separates, so blanks only add to the first part and to the last
  obtain ⟨front, back, heq, hfront, hback⟩ := exists_blanks cs
  obtain ⟨init, last, hsplit⟩ := splitOn_append separator (trimChars cs)
  have hplain := hsplit [] List.not_mem_nil
  rw [List.append_nil, List.append_nil] at hplain
  have hends : (splitOn separator (trimChars cs ++ back)).map trimChars =
      (splitOn separator (trimChars cs)).map trimChars := by
    rw [hsplit back (hblank back hback), hplain, List.map_append, List.map_append,
      List.map_singleton, List.map_singleton, trimChars_append_blanks hback]
  have hstarts (ds : List Char) : (splitOn separator (front ++ ds)).map trimChars =
      (splitOn separator ds).map trimChars := by
    clear heq
    induction front with
    | nil => rfl
    | cons b front ih =>
      obtain ⟨hb, hfront⟩ := List.forall_mem_cons.mp hfront
      have hne : b ≠ separator := by
        rintro rfl
        rw [hb] at hs
        exact Bool.noConfusion hs
      rw [← ih hfront, List.cons_append, splitOn, if_neg hne]
      cases hrest : splitOn separator (front ++ ds) with
      | nil => exact absurd hrest (splitOn_ne_nil separator _)
      | cons part parts => rw [List.map_cons, List.map_cons, trimChars_cons_blank hb]
  rw [← hends, ← hstarts, ← heq]

end Overlay.Text
