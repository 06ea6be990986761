import PLZero.Machine.Run
import PLZero.Proofs.Semantics.Evaluation

/-!
# Runs of the machine

* `Machine.after` — the state after a number of steps.
* `Machine.Takes` — some number of steps lead from one state to another, so the runs from the two
  agree but for that number.
* `Machine.Fails` — some number of steps lead to one that fails.
* `Machine.Leads` — the run from a state does what an evaluation does: it comes to a state that fits
  the result, or fails in the same way, or is not over after a number of steps when the evaluation
  is spent.  Where the operand stack is not known to be large enough, it may overflow instead; that
  case is part of the statement, so it is dealt with where values are pushed and nowhere else.
-/

namespace PLZero

/-- The faults that a run of compiled code may end with, apart from an overflow. -/
def MachineFault.IsExpected : MachineFault → Prop
  | .divisionByZero | .endOfInput | .malformedNumber _ | .malformedBoolean _ | .inputNotUtf8
  | .callDepth => True
  | _ => False

namespace Machine

variable {image : Image} {s t u : State}

/-! ## Steps in a row -/

/-- More steps do not change how a run ended. -/
theorem runFrom_add {n : Nat} {r : Report} (h : runFrom image n s = some r) (m : Nat) :
    runFrom image (n + m) s = some r := by
  induction n generalizing s with
  | zero =>
    simp only [runFrom] at h
    split at h
    · rename_i hfinal
      rw [Nat.zero_add]
      cases m <;> simp only [runFrom, hfinal, if_true, h]
    · cases h
  | succ n ih =>
    rw [Nat.succ_add]
    simp only [runFrom] at h ⊢
    split at h
    · rename_i hfinal
      rw [if_pos hfinal, h]
    · rename_i hfinal
      rw [if_neg hfinal]
      split at h
      · rename_i hstep
        exact ih h
      · rename_i hstep
        exact h

/-- The state after a number of steps, if none of them fails. -/
def after (image : Image) : (steps : Nat) → State → Option State
  | 0, s => some s
  | n + 1, s =>
    match step image s with
    | .ok _ t => after image n t
    | .error .. => none

theorem after_succ {n : Nat} (h : after image (n + 1) s = some u) :
    ∃ t, step image s = .ok () t ∧ after image n t = some u := by
  rw [after] at h
  split at h
  · rename_i t hstep
    exact ⟨t, hstep, h⟩
  · cases h

theorem after_add (k m : Nat) : after image (k + m) s = (after image k s).bind (after image m) := by
  induction k generalizing s with
  | zero => rw [Nat.zero_add, after, Option.bind_some]
  | succ k ih =>
    rw [Nat.succ_add, after, after]
    cases step image s with
    | ok _ t => exact ih
    | error => rfl

theorem step_of_isFinal (h : s.isFinal = true) : step image s = .error .noActivation s := by
  have hback : s.frames.back? = none := by
    simpa [State.isFinal] using h
  simp only [step, current, bind, EStateM.bind, hback]

/-- A walk starts at the current activation, if there is one. -/
theorem walk_eq (h : 0 < s.frames.size) (up : Nat) :
    walk up s = (follow s.frames up (s.frames.size - 1)).elim (.error .shortChain s) (.ok · s) := by
  have hsome : ¬ s.frames.isEmpty = true := by
    rw [Array.isEmpty_iff_size_eq_zero]
    omega
  rw [walk, if_neg hsome]
  cases follow s.frames up (s.frames.size - 1) <;> rfl

/-- A walk that ends has followed the links, and has changed nothing. -/
theorem follow_of_walk {up i : Nat} (h : walk up s = .ok i t) :
    follow s.frames up (s.frames.size - 1) = some i ∧ t = s := by
  unfold walk at h
  split at h
  · cases h
  · cases hfollow : follow s.frames up (s.frames.size - 1) with
    | none =>
      rw [hfollow] at h
      cases h
    | some j =>
      rw [hfollow] at h
      cases h
      exact ⟨rfl, rfl⟩

theorem fault_of_walk {up : Nat} {f : MachineFault} (h : walk up s = .error f t) :
    f = .noActivation ∨ f = .shortChain := by
  unfold walk at h
  split at h
  · cases h
    exact .inl rfl
  · cases hfollow : follow s.frames up (s.frames.size - 1) with
    | none =>
      rw [hfollow] at h
      cases h
      exact .inr rfl
    | some j =>
      rw [hfollow] at h
      cases h

/-- `k` steps lead from `s` to `t`. -/
def Takes (image : Image) (k : Nat) (s t : State) : Prop := after image k s = some t

theorem Takes.refl (s : State) : Takes image 0 s s := rfl

theorem Takes.trans {k m : Nat} (h : Takes image k s t) (h' : Takes image m t u) :
    Takes image (k + m) s u := by
  rw [Takes, after_add, h]
  exact h'

theorem Takes.one (h : step image s = .ok () t) : Takes image 1 s t := by
  rw [Takes, after, h]
  rfl

theorem Takes.runFrom_eq {k : Nat} (h : Takes image k s t) (n : Nat) :
    runFrom image (k + n) s = runFrom image n t := by
  induction k generalizing s with
  | zero =>
    cases h
    rw [Nat.zero_add]
  | succ k ih =>
    obtain ⟨s₁, hstep, hafter⟩ := after_succ h
    have hlive : s.isFinal ≠ true := by
      intro hfinal
      rw [step_of_isFinal hfinal] at hstep
      cases hstep
    rw [Nat.succ_add, runFrom, if_neg hlive, hstep]
    exact ih hafter

/-- The run from `s` fails with `f`, and leaves the state `u`. -/
def Fails (image : Image) (s : State) (f : MachineFault) (u : State) : Prop :=
  ∃ k t, Takes image k s t ∧ step image t = .error f u

theorem Fails.of_takes {k : Nat} {f : MachineFault} (hk : Takes image k s t)
    (h : Fails image t f u) : Fails image s f u := by
  obtain ⟨m, t', hm, hstep⟩ := h
  exact ⟨k + m, t', hk.trans hm, hstep⟩

theorem runFrom_error {f : MachineFault} (hlive : s.isFinal = false)
    (h : step image s = .error f t) :
    runFrom image 1 s = some ⟨t.console, some f⟩ := by
  rw [runFrom, if_neg (by simp [hlive]), h]

theorem Fails.exists_runFrom {f : MachineFault} (hf : f.IsExpected) (h : Fails image s f u) :
    ∃ k, runFrom image k s = some ⟨u.console, some f⟩ := by
  obtain ⟨k, t, hk, hstep⟩ := h
  have hlive : t.isFinal = false := by
    cases hfinal : t.isFinal with
    | false => rfl
    | true =>
      rw [step_of_isFinal hfinal] at hstep
      cases hstep
      exact hf.elim
  exact ⟨k + 1, (hk.runFrom_eq 1).trans (runFrom_error hlive hstep)⟩

/-! ## Runs and evaluations -/

section Leads

variable {α β : Type} {o : Prop} {n : Nat} {r : Outcome α} {post : α → State → Prop}
  {broken : State → Prop}

/-- The run from `s` does what the evaluation with the outcome `r` does, or overflows, which it may
only if `o` holds.  A result comes with a state that fits it; a fault leaves a state that is
`broken`. -/
def Leads (image : Image) (o : Prop) (n : Nat) (s : State) (r : Outcome α)
    (post : α → State → Prop) (broken : State → Prop := fun _ => True) : Prop :=
  (o ∧ ∃ k c, runFrom image k s = some ⟨c, some .stackOverflow⟩) ∨
  match r with
  | .done a => ∃ k t, Takes image k s t ∧ post a t
  | .failed f c => f.IsExpected ∧ ∃ u, Fails image s f u ∧ u.console = c ∧ broken u
  | .spent => runFrom image n s = none
  | .stuck => False

namespace Leads

theorem done {a : α} (h : post a s) : Leads image o n s (.done a) post broken :=
  .inr ⟨0, s, .refl s, h⟩

/-- A run is led by where its first steps lead; those steps count. -/
theorem of_takes {k : Nat} (hk : Takes image k s t) (h : Leads image o n t r post broken) :
    Leads image o (k + n) s r post broken := by
  rcases h with ⟨ho, m, c, hm⟩ | h
  · exact .inl ⟨ho, k + m, c, by rw [hk.runFrom_eq, hm]⟩
  · right
    cases r with
    | done a =>
      obtain ⟨m, u, hu, hpost⟩ := h
      exact ⟨k + m, u, hk.trans hu, hpost⟩
    | failed f c =>
      obtain ⟨hf, u, hu, hbroken⟩ := h
      exact ⟨hf, u, hu.of_takes hk, hbroken⟩
    | spent => exact (hk.runFrom_eq n).trans h
    | stuck => exact h

theorem of_le {m : Nat} (hle : n ≤ m) (h : Leads image o m s r post broken) :
    Leads image o n s r post broken := by
  rcases h with h | h
  · exact .inl h
  · right
    cases r with
    | done a => exact h
    | failed f c => exact h
    | stuck => exact h
    | spent =>
      cases hn : runFrom image n s with
      | none => rfl
      | some report =>
        have := runFrom_add hn (m - n)
        rw [Nat.add_sub_cancel' hle, h] at this
        cases this

/-- The same, when the number of steps does not matter. -/
theorem after {k : Nat} (hk : Takes image k s t) (h : Leads image o n t r post broken) :
    Leads image o n s r post broken :=
  (of_takes hk h).of_le (Nat.le_add_left n k)

theorem bind {next : α → Outcome β} {post' : β → State → Prop} (h : Leads image o n s r post broken)
    (hnext : ∀ a t, post a t → Leads image o n t (next a) post' broken) :
    Leads image o n s (r.bind next) post' broken := by
  rcases h with h | h
  · exact .inl h
  · cases r with
    | done a =>
      obtain ⟨k, t, hk, ha⟩ := h
      exact (hnext a t ha).after hk
    | failed f c => exact .inr h
    | stuck => exact .inr h
    | spent => exact .inr h

/-- A run that is led goes on from where it has come. -/
theorem extend {post' : α → State → Prop} (h : Leads image o n s r post broken)
    (hpost : ∀ a t, post a t → ∃ k u, Takes image k t u ∧ post' a u) :
    Leads image o n s r post' broken := by
  rcases h with h | h
  · exact .inl h
  · right
    cases r with
    | done a =>
      obtain ⟨k, t, hk, ha⟩ := h
      obtain ⟨m, u, hm, hu⟩ := hpost a t ha
      exact ⟨k + m, u, hk.trans hm, hu⟩
    | failed f c => exact h
    | stuck => exact h
    | spent => exact h

/-- What is said of the state that a fault leaves may be weakened. -/
theorem imp_broken {broken' : State → Prop} (h : Leads image o n s r post broken)
    (himp : ∀ u, broken u → broken' u) : Leads image o n s r post broken' := by
  rcases h with h | h
  · exact .inl h
  · right
    cases r with
    | failed f c =>
      obtain ⟨hf, u, hu, hc, hbroken⟩ := h
      exact ⟨hf, u, hu, hc, himp u hbroken⟩
    | _ => exact h

end Leads

end Leads

end Machine

end PLZero
