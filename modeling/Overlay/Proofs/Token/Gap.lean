import Overlay.Proofs.Token

namespace Overlay
open Text (Stops isBlank)

/-- One thing that may stand between tokens. -/
inductive Filler where
  | blank (c : Char) (h : isBlank c = true)
  | lineComment (body : List Char) (h : '\n' ∉ body)
  | blockComment (body : List Char) (h : ¬ ['*', '/'] <:+: body)

def Filler.chars : Filler → List Char
  | blank c _ => [c]
  | lineComment body _ => '/' :: '/' :: (body ++ ['\n'])
  | blockComment body _ => '/' :: '*' :: (body ++ ['*', '/'])

namespace Piece

variable {c : Char} {cs body rest : List Char} {n : Nat}

/-- A comment ends at the first end mark, which may have more stars in front of it. -/
theorem commentLength_eq (h : ¬ ['*', '/'] <:+: body) (rest : List Char) :
    commentLength? (body ++ '*' :: '/' :: rest) = some (body.length + 2) := by
  induction body with
  | nil => rfl
  | cons c body ih =>
    rw [List.infix_cons_iff, not_or] at h
    rw [List.cons_append, commentLength?, ih h.2]
    · rfl
    · rintro cs rfl hcs
      cases body with
      | nil => simp at hcs
      | cons d body =>
        obtain ⟨rfl, -⟩ := List.cons.inj hcs
        exact h.1 ⟨body, rfl⟩

theorem body_of_commentLength (h : commentLength? cs = some n) : ∃ body rest,
    cs = body ++ '*' :: '/' :: rest ∧ n = body.length + 2 ∧ ¬ ['*', '/'] <:+: body := by
  fun_induction commentLength? cs generalizing n with
  | case1 cs =>
    obtain rfl := Option.some.inj h
    exact ⟨[], cs, rfl, rfl, by simp⟩
  | case2 c cs hmark ih =>
    obtain ⟨m, hm, rfl⟩ := Option.map_eq_some_iff.mp h
    obtain ⟨body, rest, rfl, rfl, hbody⟩ := ih hm
    refine ⟨c :: body, rest, rfl, rfl, ?_⟩
    rw [List.infix_cons_iff, not_or]
    refine ⟨?_, hbody⟩
    rintro ⟨more, hmore⟩
    obtain ⟨rfl, rfl⟩ := List.cons.inj hmore
    exact hmark _ rfl rfl
  | case3 => simp at h

theorem read_blank (h : isBlank c = true) (cs : List Char) : read c cs = .ok (.gap, 0) := by
  rw [read, if_pos h]

/-- A comment is read up to the end of its line, or of the text. -/
theorem read_lineComment (hb : '\n' ∉ body) (hr : ∀ c ∈ rest.head?, c = '\n') :
    read '/' ('/' :: (body ++ rest)) = .ok (.gap, body.length + 2) := by
  have hbody : ∀ c ∈ '/' :: body, decide (c ≠ '\n') = true := by
    intro c hc
    rw [decide_eq_true_iff]
    rcases List.mem_cons.mp hc with rfl | hc
    · decide
    · rintro rfl
      exact hb hc
  have hstop : Stops (fun c => decide (c ≠ '\n')) rest := by
    intro c hc
    simpa using hr c hc
  have hrun := Text.takeWhile_run hbody hstop
  rw [List.cons_append] at hrun
  rw [read, if_neg (by decide), if_pos ⟨rfl, rfl⟩, hrun]
  rfl

theorem read_blockComment (h : commentLength? cs = some n) :
    read '/' ('*' :: cs) = .ok (.gap, n + 1) := by
  rw [read, if_neg (by decide), if_neg (by simp), if_pos ⟨rfl, rfl⟩, List.drop_one,
    List.tail_cons, h]

/-- Whatever is behind it, what may stand between tokens is read as that. -/
theorem read_filler (f : Filler) : ∃ c front, f.chars = c :: front ∧
    ∀ rest, read c (front ++ rest) = .ok (.gap, front.length) := by
  cases f with
  | blank c h => exact ⟨c, [], rfl, read_blank h⟩
  | lineComment body h =>
    refine ⟨'/', '/' :: (body ++ ['\n']), rfl, fun rest => ?_⟩
    rw [List.cons_append, List.append_assoc, read_lineComment h (by simp)]
    simp
  | blockComment body h =>
    refine ⟨'/', '*' :: (body ++ ['*', '/']), rfl, fun rest => ?_⟩
    rw [List.cons_append, List.append_assoc]
    refine (read_blockComment (commentLength_eq h rest)).trans ?_
    simp

/-- What is read between tokens is one of the things that may stand there, unless the text ends
within a comment on its last line. -/
theorem filler_of_read (h : read c cs = .ok (.gap, n)) :
    (∃ (f : Filler) (front rest : List Char), f.chars = c :: front ∧ cs = front ++ rest ∧
      front.length = n) ∨
    ∃ body, '\n' ∉ body ∧ c = '/' ∧ cs = '/' :: body ∧ n = cs.length + 1 := by
  by_cases hb : isBlank c = true
  · obtain ⟨-, rfl⟩ := Prod.mk.inj (Except.ok.inj ((read_blank hb cs).symm.trans h))
    exact .inl ⟨.blank c hb, [], cs, rfl, rfl, rfl⟩
  by_cases hline : c = '/' ∧ cs.head? = some '/'
  · obtain ⟨rfl, hhead⟩ := hline
    obtain ⟨ds, rfl⟩ := List.head?_eq_some_iff.mp hhead
    obtain ⟨body, rest, rfl, hbody, hrest⟩ := Text.exists_run (fun c => decide (c ≠ '\n')) ds
    have hnone : '\n' ∉ body := fun hm => of_decide_eq_true (hbody '\n' hm) rfl
    have hend : ∀ c ∈ rest.head?, c = '\n' := fun c hc => by simpa using hrest c hc
    obtain ⟨-, rfl⟩ := Prod.mk.inj (Except.ok.inj ((read_lineComment hnone hend).symm.trans h))
    cases rest with
    | nil => exact .inr ⟨body, hnone, rfl, by rw [List.append_nil], by simp⟩
    | cons d more =>
      obtain rfl : d = '\n' := hend d rfl
      exact .inl ⟨.lineComment body hnone, '/' :: (body ++ ['\n']), more, rfl, by simp, by simp⟩
  by_cases hblock : c = '/' ∧ cs.head? = some '*'
  · obtain ⟨rfl, hhead⟩ := hblock
    obtain ⟨ds, rfl⟩ := List.head?_eq_some_iff.mp hhead
    have hsome : ∃ m, commentLength? ds = some m := by
      rw [read, if_neg hb, if_neg hline, if_pos ⟨rfl, rfl⟩, List.drop_one, List.tail_cons] at h
      cases hm : commentLength? ds with
      | none => simp [hm] at h
      | some m => exact ⟨m, rfl⟩
    obtain ⟨m, hm⟩ := hsome
    obtain ⟨-, rfl⟩ := Prod.mk.inj (Except.ok.inj ((read_blockComment hm).symm.trans h))
    obtain ⟨body, rest, rfl, rfl, hbody⟩ := body_of_commentLength hm
    exact .inl ⟨.blockComment body hbody, '*' :: (body ++ ['*', '/']), rest, rfl, by simp,
      by simp⟩
  · -- everything else is a token or a fault
    rw [read, if_neg hb, if_neg hline, if_neg hblock] at h
    split_ifs at h
    · simp at h
    · split at h <;> simp at h
    · split at h <;> simp at h
    · simp at h
    · split at h <;> simp at h

end Piece

end Overlay
