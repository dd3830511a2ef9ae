import Mathlib.Data.List.TakeWhile

namespace Overlay.Text

/-- No character of a kind stands in front. -/
def Stops (p : Char → Bool) (cs : List Char) : Prop := ∀ c ∈ cs.head?, p c = false

variable {p q : Char → Bool} {c : Char} {cs ds rest : List Char}

@[simp] theorem stops_nil : Stops p [] := by simp [Stops]

@[simp] theorem stops_cons : Stops p (c :: cs) ↔ p c = false := by simp [Stops]

theorem Stops.mono (h : Stops q cs) (hpq : ∀ c, p c = true → q c = true) : Stops p cs := by
  intro c hc
  cases hp : p c with
  | false => rfl
  | true => exact absurd (hpq c hp) (by simp [h c hc])

theorem Stops.append (h : Stops p cs) (hn : cs ≠ []) (more : List Char) : Stops p (cs ++ more) := by
  cases cs with
  | nil => exact absurd rfl hn
  | cons c cs => exact h

theorem Stops.of_append {more : List Char} (h : Stops p (cs ++ more)) : Stops p cs := by
  cases cs with
  | nil => exact stops_nil
  | cons c cs => exact h

theorem stops_iff : Stops p cs ↔ cs.head?.any p = false := by
  cases cs <;> simp

theorem stops_dropWhile (p : Char → Bool) (cs : List Char) : Stops p (cs.dropWhile p) := by
  intro c hc
  have h := List.head?_dropWhile_not p cs
  rw [Option.mem_def.mp hc] at h
  simpa using h

theorem takeWhile_stop (h : Stops p cs) : cs.takeWhile p = [] := by
  cases cs with
  | nil => rfl
  | cons c cs => exact List.takeWhile_cons_of_neg (by simp [stops_cons.mp h])

theorem dropWhile_stop (h : Stops p cs) : cs.dropWhile p = cs := by
  cases cs with
  | nil => rfl
  | cons c cs => exact List.dropWhile_cons_of_neg (by simp [stops_cons.mp h])

/-- A run ends where the text behind it stops. -/
theorem takeWhile_run (h : ∀ c ∈ ds, p c = true) (hr : Stops p rest) :
    (ds ++ rest).takeWhile p = ds := by
  rw [List.takeWhile_append_of_pos h, takeWhile_stop hr, List.append_nil]

theorem dropWhile_run (h : ∀ c ∈ ds, p c = true) (hr : Stops p rest) :
    (ds ++ rest).dropWhile p = rest := by
  rw [List.dropWhile_append_of_pos h, dropWhile_stop hr]

/-- Every text is a run and a rest that stops. -/
theorem exists_run (p : Char → Bool) (cs : List Char) :
    ∃ ds rest, cs = ds ++ rest ∧ (∀ c ∈ ds, p c = true) ∧ Stops p rest :=
  ⟨cs.takeWhile p, cs.dropWhile p, List.takeWhile_append_dropWhile.symm,
    fun _ hc => List.mem_takeWhile_imp hc, stops_dropWhile p cs⟩

end Overlay.Text
