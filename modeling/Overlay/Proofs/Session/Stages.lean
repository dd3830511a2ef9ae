import Overlay.Proofs.Session

/-! The stages of a session as a state machine. Whatever is called on a new session, and in
whichever order, a call at the wrong stage changes nothing, no stage is worked at twice or before
its predecessors, and the way ends with a failure or with the one tree. -/
namespace Overlay.Session

inductive Call where
  | parse (sources : List Source)
  | register
  | resolve
  | merge

namespace Call

def expected : Call → Stage
  | parse _ => .empty
  | register => .parsing
  | resolve => .registering
  | merge => .resolving

def requested : Call → Stage
  | parse _ => .parsing
  | register => .registering
  | resolve => .resolving
  | merge => .merging

def reached : Call → Stage
  | parse _ => .parsing
  | register => .registering
  | resolve => .resolving
  | merge => .finalized

/-- How many calls have to come first. Two calls of one level work at the same stage. -/
def level : Call → Nat
  | parse _ => 0
  | register => 1
  | resolve => 2
  | merge => 3

end Call

/-- A call with the session before and behind it, and what it returned: an error, or else the
outcome if one was handed out. -/
structure Turn where
  call : Call
  before : Session
  answer : Except SessionError (Option Outcome)
  after : Session

def turnOf {α : Type} (call : Call) (s : Session) (step : Step α) (handedOut : α → Option Outcome) :
    Turn :=
  ⟨call, s, step.result.map handedOut, step.session⟩

def turn (s : Session) : Call → Turn
  | .parse sources => turnOf (.parse sources) s (s.parse sources) fun _ => none
  | .register => turnOf .register s s.register fun _ => none
  | .resolve => turnOf .resolve s s.resolve fun _ => none
  | .merge => turnOf .merge s s.merge some

def turns (s : Session) : List Call → List Turn
  | [] => []
  | call :: calls => s.turn call :: (s.turn call).after.turns calls

namespace Turn

/-- The call was told that it does not go with the stage of the session. -/
def Refused (t : Turn) : Prop :=
  ∃ current requested, t.answer = .error (.transition current requested)

def Succeeded (t : Turn) : Prop := (∃ x, t.answer = .ok x) ∧ t.after.stage = t.call.reached

def Failed (t : Turn) : Prop :=
  (∃ e, t.answer = .error e) ∧ ¬ t.Refused ∧ t.after.stage = .failed

end Turn

/-- What holds of the turns of a session, in their order. -/
structure Orderly (history : List Turn) : Prop where
  /-- A call at the wrong stage is told so, and the session stays as it is. -/
  refused : ∀ t ∈ history, t.before.stage ≠ t.call.expected →
    t.answer = .error (.transition t.before.stage t.call.requested) ∧ t.after = t.before
  /-- A call at its stage is not refused, however the work ends. -/
  entered : ∀ t ∈ history, t.before.stage = t.call.expected → ¬ t.Refused
  /-- A stage is worked at once at most. -/
  once : ∀ earlier t later, history = earlier ++ t :: later → ¬ t.Refused →
    ∀ u ∈ earlier ++ later, u.call.level = t.call.level → u.Refused
  /-- A stage is worked at only when all stages before it have succeeded. -/
  prepared : ∀ earlier t later, history = earlier ++ t :: later → ¬ t.Refused →
    ∀ level < t.call.level, ∃ u ∈ earlier, u.call.level = level ∧ ∃ x, u.answer = .ok x
  failed : ∀ t ∈ history, ∀ e, t.answer = .error e → ¬ t.Refused → t.after.stage = .failed
  advanced : ∀ t ∈ history, ∀ x, t.answer = .ok x → t.after.stage = t.call.reached
  /-- Nothing is worked at any more behind the end. -/
  closed : ∀ earlier t later, history = earlier ++ t :: later →
    t.after.stage = .failed ∨ t.after.stage = .finalized →
      ∀ u ∈ later, u.answer = .error (.transition t.after.stage u.call.requested)
  handedOut : ∀ earlier t later outcome, history = earlier ++ t :: later →
    t.answer = .ok (some outcome) → t.after.stage = .finalized ∧
      ∀ u ∈ earlier ++ later, ∀ other, u.answer ≠ .ok (some other)

theorem enter_refused {α : Type} {s : Session} {before next : Stage} {work : Session → Step α}
    (h : s.stage ≠ before) :
    s.enter before next work = ⟨s, .error (.transition s.stage next), []⟩ := by
  rw [enter, if_neg h]

/-- A step goes on to a stage, or the session fails for a reason of the work. -/
def Settles {α : Type} (step : Step α) (reached : Stage) : Prop :=
  ((∃ a, step.result = .ok a) ∧ step.session.stage = reached) ∨
    (∃ e, step.result = .error e ∧ ∀ current requested, e ≠ .transition current requested) ∧
      step.session.stage = .failed

theorem settles_enter {α : Type} {s : Session} {before next reached : Stage}
    {work : Session → Step α} (h : s.stage = before)
    (hw : Settles (work { s with stage := next }) reached) :
    Settles (s.enter before next work) reached := by
  rw [Settles, (result_of_enter h).1, (result_of_enter h).2]
  exact hw

theorem settles_fail {α : Type} {s : Session} {e : SessionError} {events : List Event}
    {reached : Stage} (he : ∀ current requested, e ≠ .transition current requested) :
    Settles (s.fail e events : Step α) reached :=
  Or.inr ⟨⟨e, rfl, he⟩, rfl⟩

theorem settles_parse {s : Session} (h : s.stage = .empty) (sources : List Source) :
    Settles (s.parse sources) .parsing :=
  settles_enter h (Or.inl ⟨⟨(), rfl⟩, rfl⟩)

theorem settles_ite {α : Type} {p : Prop} [Decidable p] {yes no : Step α} {reached : Stage}
    (hy : Settles yes reached) (hn : Settles no reached) :
    Settles (if p then yes else no) reached := by
  split_ifs
  · exact hy
  · exact hn

theorem settles_register {s : Session} (h : s.stage = .parsing) :
    Settles s.register .registering := by
  apply settles_enter h
  refine settles_ite (Or.inl ⟨⟨(), rfl⟩, rfl⟩) ?_
  dsimp only
  cases s.options.onError with
  | reject => exact settles_fail (by simp)
  | skip => exact Or.inl ⟨⟨(), rfl⟩, rfl⟩

theorem settles_resolve {s : Session} (h : s.stage = .registering) :
    Settles s.resolve .resolving := by
  apply settles_enter h
  dsimp only
  split
  · exact Or.inl ⟨⟨(), rfl⟩, rfl⟩
  · exact settles_fail (by simp)

theorem settles_merge {s : Session} (h : s.stage = .resolving) : Settles s.merge .finalized := by
  apply settles_enter h
  dsimp only
  split
  · exact settles_fail (by simp)
  · exact Or.inl ⟨⟨_, rfl⟩, rfl⟩

theorem turnOf_refused {α : Type} {call : Call} {s : Session} {step : Step α}
    {handedOut : α → Option Outcome}
    (h : step = ⟨s, .error (.transition s.stage call.requested), []⟩) :
    (turnOf call s step handedOut).answer = .error (.transition s.stage call.requested) ∧
      (turnOf call s step handedOut).after = s := by
  rw [h]
  exact ⟨rfl, rfl⟩

/-- A call at the wrong stage is told so, and the session stays as it is. -/
theorem turn_refused {s : Session} {call : Call} (h : s.stage ≠ call.expected) :
    (s.turn call).answer = .error (.transition s.stage call.requested) ∧
      (s.turn call).after = s := by
  cases call with
  | parse => exact turnOf_refused (enter_refused h)
  | register => exact turnOf_refused (enter_refused h)
  | resolve => exact turnOf_refused (enter_refused h)
  | merge => exact turnOf_refused (enter_refused h)

theorem turnOf_settled {α : Type} {call : Call} {s : Session} {step : Step α}
    {handedOut : α → Option Outcome} (h : Settles step call.reached) :
    (turnOf call s step handedOut).Succeeded ∨ (turnOf call s step handedOut).Failed := by
  rcases h with ⟨⟨a, ha⟩, hs⟩ | ⟨⟨e, he, hne⟩, hs⟩
  · exact Or.inl ⟨⟨handedOut a, congrArg (Except.map handedOut) ha⟩, hs⟩
  · have hanswer : (turnOf call s step handedOut).answer = .error e :=
      congrArg (Except.map handedOut) he
    refine Or.inr ⟨⟨e, hanswer⟩, ?_, hs⟩
    rintro ⟨current, requested, hr⟩
    exact hne current requested (Except.error.inj (hanswer.symm.trans hr))

theorem turn_settled {s : Session} {call : Call} (h : s.stage = call.expected) :
    (s.turn call).Succeeded ∨ (s.turn call).Failed := by
  cases call with
  | parse sources => exact turnOf_settled (settles_parse h sources)
  | register => exact turnOf_settled (settles_register h)
  | resolve => exact turnOf_settled (settles_resolve h)
  | merge => exact turnOf_settled (settles_merge h)

@[simp] theorem before_turn (s : Session) (call : Call) : (s.turn call).before = s := by
  cases call <;> rfl

@[simp] theorem call_turn (s : Session) (call : Call) : (s.turn call).call = call := by
  cases call <;> rfl

theorem not_refused_of_ok {t : Turn} {x : Option Outcome} (h : t.answer = .ok x) : ¬ t.Refused := by
  rintro ⟨current, requested, hr⟩
  rw [h] at hr
  exact nomatch hr

/-- A turn is refused exactly if its call does not go with the stage. -/
theorem refused_turn_iff {s : Session} {call : Call} :
    (s.turn call).Refused ↔ s.stage ≠ call.expected := by
  by_cases h : s.stage = call.expected
  · refine iff_of_false ?_ (not_not_intro h)
    rcases turn_settled h with ⟨⟨x, hx⟩, -⟩ | ⟨-, hn, -⟩
    · exact not_refused_of_ok hx
    · exact hn
  · exact iff_of_true ⟨_, _, (turn_refused h).1⟩ h

theorem succeeded_of_ok {s : Session} {call : Call} {x : Option Outcome}
    (h : (s.turn call).answer = .ok x) : (s.turn call).Succeeded := by
  have hexpected := not_not.mp (mt refused_turn_iff.mpr (not_refused_of_ok h))
  refine (turn_settled hexpected).resolve_right ?_
  rintro ⟨⟨e, he⟩, -⟩
  exact nomatch h.symm.trans he

theorem failed_of_error {s : Session} {call : Call} {e : SessionError}
    (h : (s.turn call).answer = .error e) (hn : ¬ (s.turn call).Refused) :
    (s.turn call).Failed := by
  have hexpected := not_not.mp (mt refused_turn_iff.mpr hn)
  refine (turn_settled hexpected).resolve_left ?_
  rintro ⟨⟨x, hx⟩, -⟩
  exact nomatch h.symm.trans hx

theorem call_of_outcome {s : Session} {call : Call} {outcome : Outcome}
    (h : (s.turn call).answer = .ok (some outcome)) : call = .merge := by
  have hnone {α : Type} (r : Except SessionError α) :
      r.map (fun _ => (none : Option Outcome)) ≠ .ok (some outcome) := by
    cases r <;> exact nofun
  cases call with
  | parse => exact absurd h (hnone _)
  | register => exact absurd h (hnone _)
  | resolve => exact absurd h (hnone _)
  | merge => rfl

theorem exists_turn_of_mem {s : Session} {calls : List Call} {t : Turn} (h : t ∈ s.turns calls) :
    ∃ s' call, t = turn s' call := by
  induction calls generalizing s with
  | nil => exact absurd h List.not_mem_nil
  | cons call calls ih =>
    rcases List.mem_cons.mp h with rfl | h
    · exact ⟨s, call, rfl⟩
    · exact ih h

/-- The turns behind a turn start from the session that it left. -/
theorem turns_split {s : Session} {calls : List Call} {earlier later : List Turn} {t : Turn}
    (h : s.turns calls = earlier ++ t :: later) : ∃ more, later = t.after.turns more := by
  induction earlier generalizing s calls with
  | nil =>
    cases calls with
    | nil => exact nomatch h
    | cons call calls =>
      obtain ⟨rfl, rfl⟩ := List.cons.inj h
      exact ⟨calls, rfl⟩
  | cons u earlier ih =>
    cases calls with
    | nil => exact nomatch h
    | cons call calls => exact ih (List.cons.inj h).2

def distance : Stage → Nat
  | .empty => 0
  | .parsing => 1
  | .registering => 2
  | .resolving => 3
  | .merging => 4
  | .finalized => 5
  | .failed => 5

theorem distance_expected (call : Call) : distance call.expected = call.level := by
  cases call <;> rfl

/-- Work that is begun takes the session further, be it to its failure. -/
theorem level_lt_distance_after {s : Session} {call : Call} (h : s.stage = call.expected) :
    call.level < distance (s.turn call).after.stage := by
  rcases turn_settled h with ⟨-, hs⟩ | ⟨-, -, hs⟩
  · rw [hs, call_turn]
    cases call <;> simp [Call.level, Call.reached, distance]
  · rw [hs]
    cases call <;> simp [Call.level, distance]

theorem distance_le_after (s : Session) (call : Call) :
    distance s.stage ≤ distance (s.turn call).after.stage := by
  by_cases h : s.stage = call.expected
  · rw [h, distance_expected]
    exact Nat.le_of_lt (level_lt_distance_after h)
  · rw [(turn_refused h).2]

theorem distance_le_before {s : Session} {calls : List Call} {u : Turn} (h : u ∈ s.turns calls) :
    distance s.stage ≤ distance u.before.stage := by
  induction calls generalizing s with
  | nil => exact absurd h List.not_mem_nil
  | cons call calls ih =>
    rcases List.mem_cons.mp h with rfl | h
    · rw [before_turn]
    · exact (distance_le_after s call).trans (ih h)

/-- Behind a turn whose work was begun the session is past the stage, so it refuses the call. -/
theorem refused_later {s : Session} {calls : List Call} {earlier later : List Turn} {t u : Turn}
    (h : s.turns calls = earlier ++ t :: later) (ht : ¬ t.Refused) (hu : u ∈ later)
    (hl : u.call.level = t.call.level) : u.Refused := by
  have hm : t ∈ s.turns calls := by simp [h]
  obtain ⟨s', call, rfl⟩ := exists_turn_of_mem hm
  obtain ⟨more, rfl⟩ := turns_split h
  have hle := distance_le_before hu
  obtain ⟨s'', call', rfl⟩ := exists_turn_of_mem hu
  rw [call_turn, call_turn] at hl
  rw [before_turn] at hle
  have hlt := level_lt_distance_after (not_not.mp (mt refused_turn_iff.mpr ht))
  refine refused_turn_iff.mpr fun he => ?_
  rw [he, distance_expected] at hle
  omega

/-- At a stage that some call goes on from, the stages below the one it works at have succeeded. -/
def Prepared (past : List Turn) (stage : Stage) : Prop :=
  ∀ call : Call, stage = call.expected → ∀ level < call.level,
    ∃ u ∈ past, u.call.level = level ∧ ∃ x, u.answer = .ok x

/-- No call comes before the one that goes on from the start. -/
theorem prepared_empty : Prepared [] .empty := by
  intro call he level hl
  cases call with
  | parse => exact absurd hl (Nat.not_lt_zero level)
  | register | resolve | merge => exact nomatch he

theorem level_of_reached {call next : Call} (h : call.reached = next.expected) :
    next.level = call.level + 1 := by
  cases call <;> cases next <;> simp [Call.level, Call.reached, Call.expected] at h ⊢

/-- One more turn keeps the stages behind it prepared. -/
theorem prepared_turn {past : List Turn} {s : Session} (h : Prepared past s.stage) (call : Call) :
    Prepared (past ++ [s.turn call]) (s.turn call).after.stage := by
  intro next hn level hl
  by_cases he : s.stage = call.expected
  · rcases turn_settled he with ⟨hok, hs⟩ | ⟨-, -, hs⟩
    · rw [hs, call_turn] at hn
      have hnext := level_of_reached hn
      have hle : level ≤ call.level := by omega
      rcases Nat.lt_or_eq_of_le hle with hlt | rfl
      · obtain ⟨u, hu, hr⟩ := h call he level hlt
        exact ⟨u, List.mem_append_left _ hu, hr⟩
      · exact ⟨s.turn call, by simp, by simp, hok⟩
    · -- no call goes on from the failure
      rw [hs] at hn
      cases next <;> exact nomatch hn
  · rw [(turn_refused he).2] at hn
    obtain ⟨u, hu, hr⟩ := h next hn level hl
    exact ⟨u, List.mem_append_left _ hu, hr⟩

/-- In a row of turns each begins at a stage that is prepared by those in front of it. -/
theorem prepared_turns {past earlier later : List Turn} {s : Session} {calls : List Call} {t : Turn}
    (h : Prepared past s.stage) (ht : s.turns calls = earlier ++ t :: later) :
    Prepared (past ++ earlier) t.before.stage := by
  induction earlier generalizing past s calls with
  | nil =>
    cases calls with
    | nil => exact nomatch ht
    | cons call calls =>
      obtain ⟨rfl, -⟩ := List.cons.inj ht
      rw [List.append_nil, before_turn]
      exact h
  | cons u earlier ih =>
    cases calls with
    | nil => exact nomatch ht
    | cons call calls =>
      obtain ⟨rfl, hrest⟩ := List.cons.inj ht
      have hall := ih (prepared_turn h call) hrest
      rwa [List.append_assoc] at hall

/-- A session that failed or has handed out its tree refuses every call. -/
theorem refused_closed {s : Session} (h : s.stage = .failed ∨ s.stage = .finalized)
    {calls : List Call} : ∀ u ∈ s.turns calls,
      u.answer = .error (.transition s.stage u.call.requested) := by
  have hne (call : Call) : s.stage ≠ call.expected := by
    intro he
    rw [he] at h
    cases call <;> simp [Call.expected] at h
  induction calls with
  | nil => exact fun u hu => absurd hu List.not_mem_nil
  | cons call calls ih =>
    obtain ⟨hr, hs⟩ := turn_refused (hne call)
    rw [turns, hs]
    intro u hu
    rcases List.mem_cons.mp hu with rfl | hu
    · rw [call_turn]
      exact hr
    · exact ih u hu

/-- Of two turns at one stage, in either order, one is refused. -/
theorem refused_elsewhere {s : Session} {calls : List Call} {earlier later : List Turn} {t u : Turn}
    (h : s.turns calls = earlier ++ t :: later) (ht : ¬ t.Refused) (hu : u ∈ earlier ++ later)
    (hl : u.call.level = t.call.level) : u.Refused := by
  rcases List.mem_append.mp hu with hu | hu
  · -- were the earlier one not refused, the later one would be
    by_contra hn
    obtain ⟨front, middle, rfl⟩ := List.append_of_mem hu
    have hsplit : s.turns calls = front ++ u :: (middle ++ t :: later) := by
      rw [h, List.append_assoc, List.cons_append]
    have hm : t ∈ middle ++ t :: later := List.mem_append_right middle List.mem_cons_self
    exact ht (refused_later hsplit hn hm hl.symm)
  · exact refused_later h ht hu hl

theorem mem_turns_of_split {s : Session} {calls : List Call} {earlier later : List Turn}
    {t u : Turn} (h : s.turns calls = earlier ++ t :: later) (hu : u ∈ earlier ++ later) :
    u ∈ s.turns calls := by
  rw [h]
  exact List.mem_append.mpr ((List.mem_append.mp hu).imp_right (List.mem_cons_of_mem t))

/-- Whatever is called on a new session, the turns are orderly. -/
theorem turns_orderly (options : SessionOptions) (calls : List Call) :
    Orderly ((new options).turns calls) where
  refused t ht hne := by
    obtain ⟨s, call, rfl⟩ := exists_turn_of_mem ht
    rw [before_turn, call_turn] at hne ⊢
    exact turn_refused hne
  entered t ht he := by
    obtain ⟨s, call, rfl⟩ := exists_turn_of_mem ht
    rw [before_turn, call_turn] at he
    exact fun hr => refused_turn_iff.mp hr he
  once _ _ _ h ht _ hu hl := refused_elsewhere h ht hu hl
  prepared earlier t later h ht := by
    have hm : t ∈ (new options).turns calls := by simp [h]
    obtain ⟨s, call, rfl⟩ := exists_turn_of_mem hm
    -- the turns in front have prepared the session for what is called
    have hprepared := prepared_turns (s := new options) prepared_empty h
    rw [List.nil_append, before_turn] at hprepared
    rw [call_turn]
    exact hprepared call (not_not.mp (mt refused_turn_iff.mpr ht))
  failed t ht e he hn := by
    obtain ⟨s, call, rfl⟩ := exists_turn_of_mem ht
    exact (failed_of_error he hn).2.2
  advanced t ht x hx := by
    obtain ⟨s, call, rfl⟩ := exists_turn_of_mem ht
    exact (succeeded_of_ok hx).2
  closed earlier t later h hend := by
    obtain ⟨more, rfl⟩ := turns_split h
    exact refused_closed hend
  handedOut earlier t later outcome h hout := by
    have hm : t ∈ (new options).turns calls := by simp [h]
    obtain ⟨s, call, rfl⟩ := exists_turn_of_mem hm
    obtain rfl := call_of_outcome hout
    refine ⟨(succeeded_of_ok hout).2, ?_⟩
    -- a turn with an outcome is a call to merge, so the two are of one level
    intro u hu other hother
    obtain ⟨s', call', rfl⟩ := exists_turn_of_mem (mem_turns_of_split h hu)
    obtain rfl := call_of_outcome hother
    have hl : (s'.turn .merge).call.level = (s.turn .merge).call.level := by
      rw [call_turn, call_turn]
    exact not_refused_of_ok hother (refused_elsewhere h (not_refused_of_ok hout) hu hl)

end Overlay.Session
