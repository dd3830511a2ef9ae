namespace Overlay.Attempt

variable {ε α β : Type}

/-- Two attempts in a row succeed exactly if both do. -/
theorem bind_eq_ok {x : Except ε α} {f : α → Except ε β} {b : β} :
    x >>= f = .ok b ↔ ∃ a, x = .ok a ∧ f a = .ok b := by
  cases x with
  | error e => simp [bind, Except.bind]
  | ok a => simp [bind, Except.bind]

/-- Two attempts in a row fail exactly if the first fails or the second does behind it. -/
theorem bind_eq_error {x : Except ε α} {f : α → Except ε β} {e : ε} :
    x >>= f = .error e ↔ x = .error e ∨ ∃ a, x = .ok a ∧ f a = .error e := by
  cases x with
  | error e' => simp [bind, Except.bind]
  | ok a => simp [bind, Except.bind]

/-- An attempt that just hands out a value succeeds with this value only. -/
theorem pure_eq_ok {a b : α} : (pure a : Except ε α) = .ok b ↔ a = b := by
  simp [pure, Except.pure]

theorem isOk_iff {x : Except ε α} : x.isOk = true ↔ ∃ a, x = .ok a := by
  cases x <;> simp [Except.isOk, Except.toBool]

/-- What is made of its result does not matter to an attempt that fails. -/
theorem map_eq_error {x : Except ε α} {f : α → β} {e : ε} :
    x.map f = .error e ↔ x = .error e := by
  cases x <;> simp [Except.map]

/-- An attempt succeeds with something that passes a test, if that is what evaluating it shows. -/
theorem exists_ok {x : Except ε α} {test : α → Bool}
    (h : (match x with
      | .ok a => test a
      | .error _ => false) = true) : ∃ a, x = .ok a ∧ test a = true := by
  cases x with
  | error e => exact absurd h Bool.false_ne_true
  | ok a => exact ⟨a, rfl, h⟩

/-- Three attempts succeed with results that fulfil something, if evaluating them shows that. -/
theorem exists_oks {γ : Type} {x : Except ε α} {y : Except ε β} {z : Except ε γ}
    {P : α → β → γ → Prop} [∀ a b c, Decidable (P a b c)]
    (h : (do return decide (P (← x) (← y) (← z))) = (.ok true : Except ε Bool)) :
    ∃ a b c, x = .ok a ∧ y = .ok b ∧ z = .ok c ∧ P a b c := by
  obtain ⟨a, ha, h⟩ := bind_eq_ok.mp h
  obtain ⟨b, hb, h⟩ := bind_eq_ok.mp h
  obtain ⟨c, hc, h⟩ := bind_eq_ok.mp h
  exact ⟨a, b, c, ha, hb, hc, of_decide_eq_true (pure_eq_ok.mp h)⟩

/-- What is done to the result in the end can be done to the result of the last step. -/
theorem map_bind {γ : Type} (x : Except ε α) (f : α → Except ε β) (g : β → γ) :
    (x >>= f).map g = x >>= fun a => (f a).map g := by
  cases x <;> rfl

/-- Attempts in a row succeed exactly if each does. -/
theorem mapM_ok_iff {f : α → Except ε β} {xs : List α} :
    (∃ ys, xs.mapM f = .ok ys) ↔ ∀ x ∈ xs, ∃ y, f x = .ok y := by
  induction xs with
  | nil => simp [pure, Except.pure]
  | cons x xs ih =>
    rw [List.mapM_cons, List.forall_mem_cons, ← ih]
    simp only [bind_eq_ok, pure_eq_ok]
    constructor
    · rintro ⟨_, y, hy, ys, hys, -⟩
      exact ⟨⟨y, hy⟩, ys, hys⟩
    · rintro ⟨⟨y, hy⟩, ys, hys⟩
      exact ⟨_, y, hy, ys, hys, rfl⟩

/-- The results of attempts at some things are those of the single attempts. -/
theorem mem_of_mapM {f : α → Except ε β} {xs : List α} {ys : List β} {y : β}
    (h : xs.mapM f = .ok ys) : y ∈ ys ↔ ∃ x ∈ xs, f x = .ok y := by
  induction xs generalizing ys with
  | nil =>
    rw [List.mapM_nil, pure_eq_ok] at h
    simp [← h]
  | cons x xs ih =>
    rw [List.mapM_cons] at h
    obtain ⟨z, hz, h⟩ := bind_eq_ok.mp h
    obtain ⟨zs, hzs, h⟩ := bind_eq_ok.mp h
    rw [← pure_eq_ok.mp h]
    simp only [List.mem_cons, exists_eq_or_imp, ih hzs, hz, Except.ok.injEq]
    exact or_congr_left eq_comm

end Overlay.Attempt
