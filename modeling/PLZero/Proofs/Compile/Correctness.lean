import PLZero.Compile
import PLZero.Proofs.Simulation.Statements
import PLZero.Proofs.Typing.Inference

/-!
# Compiled programs

What the runs of a unit that `compile` has made have to do with the program.

* `CodeUnit.run_iff_eval` — a run ends as the evaluation of the program ends, with the same output
  and the same input left, and it ends if and only if the evaluation does.
* `CodeUnit.run_fault_expected` — the unit can be started, and its runs fail only for reasons that
  lie in the input, in the size of the machine, or in a division by zero.

Both come from one simulation (`Program.leads_eval`).  In the first the operand stack is known to be
large enough; in the second it may overflow.
-/

namespace PLZero

open Machine

/-! ## Programs as compilation leaves them -/

theorem Except.exists_of_mapError {ε ε' α : Type} {f : ε → ε'} {x : Except ε α} {a : α}
    (h : x.mapError f = .ok a) : x = .ok a := by
  cases x with
  | error e => cases h
  | ok b =>
    cases h
    rfl

/-- A program that is bound, typed and numbered. -/
structure Program.Analyzed (p : Program) : Prop where
  bound : p.Bound
  typed : p.WellTyped Op.resultTy?
  numbered : p.Numbered

theorem Program.typing_of_analyze {source : String} {p : Program} {n : Nat}
    (hsource : Program.ofSource source = .ok p) (h : p.analyze.2 = .ok n) :
    ∃ q, p.resolve = .done q () ∧ q.Fresh ∧ IsTyping Op.resultTy? q p.analyze.1 := by
  obtain ⟨tokens, -, hparse⟩ := exists_of_bind_ok hsource
  have hparse := Except.exists_of_mapError hparse
  unfold Program.analyze at h ⊢
  cases hfault : p.resolve.fault with
  | some fault =>
    simp only [hfault] at h
    cases h
  | none =>
    simp only [hfault] at h ⊢
    have hresolve : p.resolve = .done p.resolve.tree () := by
      rw [Walk.done, ← hfault]
    have hfresh := fresh_of_resolve hparse hresolve
    obtain ⟨htyping, -⟩ := isTyping_inferTypes hfresh (Except.exists_of_mapError h)
    exact ⟨p.resolve.tree, hresolve, hfresh, htyping⟩

theorem Program.analyzed_of_analyze {source : String} {p : Program} {n : Nat}
    (hsource : Program.ofSource source = .ok p) (h : p.analyze.2 = .ok n) :
    p.analyze.1.Analyzed := by
  obtain ⟨q, hresolve, hfresh, htyping⟩ := Program.typing_of_analyze hsource h
  exact ⟨(Program.bound_resolve hresolve).of_untyped htyping.same, htyping.wellTyped,
    hfresh.numbered.of_untyped htyping.same⟩

theorem stages_of_compile {source name : String} {p : Program} {u : CodeUnit}
    (hsource : Program.ofSource source = .ok p) (h : compile source name = .ok u) :
    (∃ n, p.analyze.2 = .ok n) ∧ p.analyze.1.generate name = .ok u := by
  obtain ⟨p', hp', h⟩ := exists_of_bind_ok h
  obtain rfl : p = p' := Except.ok.inj (hsource.symm.trans hp')
  obtain ⟨n, hn, h⟩ := exists_of_bind_ok h
  exact ⟨⟨n, hn⟩, Except.exists_of_mapError h⟩

theorem generate_of_compile {source name : String} {p : Program} {u : CodeUnit}
    (hsource : Program.ofSource source = .ok p) (h : compile source name = .ok u) :
    p.analyze.1.Analyzed ∧ p.analyze.1.generate name = .ok u := by
  obtain ⟨⟨n, hn⟩, hgenerate⟩ := stages_of_compile hsource h
  exact ⟨Program.analyzed_of_analyze hsource hn, hgenerate⟩

theorem exists_source_of_compile {source name : String} {u : CodeUnit}
    (h : compile source name = .ok u) : ∃ p, Program.ofSource source = .ok p := by
  obtain ⟨p, hp, -⟩ := exists_of_bind_ok h
  exact ⟨p, hp⟩

/-! ## Runs of a program -/

namespace Program

variable {p : Program} {l : Layout} {image : Image} {o : Prop}

theorem Analyzed.runnable (hp : p.Analyzed) (hinstalled : p.Installed l image)
    (hneed : ∀ e ∈ p.expressions, ¬o → e.need ≤ maxOperandStack) :
    Runnable p l image o [] 0 p.block.decls p.block.stmt := by
  have hlegal := hp.bound.legal hp.numbered hinstalled.main.fits
  exact ⟨⟨hlegal, trivial⟩, valueVars_of_wellTyped hp.typed.decls, hp.typed.stmt, hp.bound.stmt,
    hinstalled.main, fun e he => hneed e (List.mem_append_right _ he)⟩

/-- The state in which the program has been entered. -/
def entered (R : LoadedRoutine) (input : List UInt8) : State :=
  ⟨#[], #[⟨0, 0, (R.locals.map Ty.default).toArray, none⟩], ⟨input, ""⟩⟩

/-- **The run of an installed program does what its evaluation does.** -/
theorem leads_eval {R : LoadedRoutine} (hp : p.Analyzed) (hinstalled : p.Installed l image)
    (hneed : ∀ e ∈ p.expressions, ¬o → e.need ≤ maxOperandStack) (hR : image[0]? = some R)
    (fuel : Nat) (input : List UInt8) :
    Leads image o fuel (entered R input) (p.eval fuel input)
      fun w t => t.isFinal = true ∧ t.console = w.console := by
  have hset : Setting p l image := ⟨⟨hp.typed, hp.numbered⟩, hinstalled⟩
  have hbody : Runnable p l image o (([] : Env).map Layer.decls) 0 p.block.decls p.block.stmt :=
    hp.runnable hinstalled hneed
  have hrun := leads_body ⟨input, ""⟩ (simulates_eval hset hneed fuel).1 hbody hR
    (.nil : Represents #[] [] []) (rfl : none = _)
  refine hrun.extend ?_
  rintro w _ ⟨fs, rfl, hmoved, -⟩
  refine ⟨0, _, .refl _, ?_, rfl⟩
  have hsize : fs.size = 1 := hmoved.size
  simp [State.isFinal, ← Array.size_eq_zero_iff, hsize]

end Program

/-- Two runs from one state that have both ended have ended in the same way. -/
theorem report_eq {image : Image} {s : State} {n m : Nat} {r r' : Report}
    (h : runFrom image n s = some r) (h' : runFrom image m s = some r') : r = r' := by
  have hn := runFrom_add h m
  rw [Nat.add_comm, runFrom_add h' n] at hn
  exact (Option.some.inj hn).symm

/-- How a run ends that does what an evaluation does. -/
theorem Machine.Leads.ends {image : Image} {o : Prop} {n : Nat} {s : State} {out : Outcome World}
    (h : Leads image o n s out fun w t => t.isFinal = true ∧ t.console = w.console) :
    (o ∧ ∃ k c, runFrom image k s = some ⟨c, some .stackOverflow⟩) ∨
    (∃ r k, out.report? = some r ∧ runFrom image k s = some r ∧
      ∀ f, r.fault = some f → f.IsExpected) ∨
    (out = .spent ∧ runFrom image n s = none) := by
  rcases h with h | h
  · exact .inl h
  · cases out with
    | done w =>
      obtain ⟨k, t, hk, hfinal, hconsole⟩ := h
      refine .inr (.inl ⟨⟨w.console, none⟩, k, rfl, ?_, by simp⟩)
      have hend := hk.runFrom_eq 0
      rwa [Nat.add_zero, runFrom, if_pos hfinal, hconsole] at hend
    | failed f c =>
      obtain ⟨hf, u, hu, rfl, -⟩ := h
      obtain ⟨k, hk⟩ := hu.exists_runFrom hf
      exact .inr (.inl ⟨⟨u.console, some f⟩, k, rfl, hk, fun f' hf' => Option.some.inj hf' ▸ hf⟩)
    | stuck => exact h.elim
    | spent => exact .inr (.inr ⟨rfl, h⟩)

/-- A unit that was compiled can be started, and then its program is installed. -/
theorem begin_of_compile {source name : String} {p : Program} {u : CodeUnit}
    (hsource : Program.ofSource source = .ok p) (h : compile source name = .ok u)
    (hcount : u.labelCount < 2 ^ 32) :
    ∃ l image R, p.analyze.1.Analyzed ∧ p.analyze.1.Installed l image ∧ image[0]? = some R ∧
      ∀ input, Machine.begin u input = .ok (image, Program.entered R input) := by
  obtain ⟨hanalyzed, hgenerate⟩ := generate_of_compile hsource h
  obtain ⟨l, image, hload, hentry, hinstalled⟩ :=
    Program.installed_generate hgenerate hanalyzed.numbered.nodup hcount
  obtain ⟨R, -, -, -, hR, -⟩ := hinstalled.main.routine
  refine ⟨l, image, R, hanalyzed, hinstalled, hR, fun input => ?_⟩
  have hnone : u.entry?.isNone = false := by simpa using hentry
  have henter : enter image 0 none (.start input) = .ok () (Program.entered R input) := by
    rw [State.start, enter_eq none hR, if_neg (by decide)]
    rfl
  simp only [Machine.begin, hload, bind, Except.bind, hnone, henter]
  rfl

/-! ## Results -/

/-- **Compiled programs do what their programs say.**  A run of the unit comes to an end if and only
if the evaluation of the program does; then both have printed the same, have left the same input,
and have ended in the same way.  The evaluation is never stuck. -/
theorem CodeUnit.run_iff_eval (source unitName : String) {p : Program} {u : CodeUnit}
    (hsource : Program.ofSource source = .ok p) (hcompile : compile source unitName = .ok u)
    (hlabels : u.labelCount < 2 ^ 32)
    (hneed : ∀ e ∈ p.analyze.1.expressions, e.need ≤ maxOperandStack) (input : List UInt8) :
    (∀ fuel, p.analyze.1.eval fuel input ≠ .stuck) ∧
    ∀ r, (∃ steps, u.run steps input = some r) ↔
      ∃ fuel, ∀ n, fuel ≤ n → (p.analyze.1.eval n input).report? = some r := by
  obtain ⟨l, image, R, hanalyzed, hinstalled, hR, hbegin⟩ :=
    begin_of_compile hsource hcompile hlabels
  have hrun (steps : Nat) : u.run steps input = runFrom image steps (Program.entered R input) := by
    simp only [CodeUnit.run, hbegin]
  have hends (fuel : Nat) := (Program.leads_eval (o := False) hanalyzed hinstalled
    (fun e he _ => hneed e he) hR fuel input).ends
  refine ⟨fun fuel hstuck => ?_, fun r => ⟨?_, ?_⟩⟩
  · have hend := hends fuel
    rw [hstuck] at hend
    rcases hend with ⟨hfalse, -⟩ | ⟨r, k, hr, -, -⟩ | ⟨hspent, -⟩
    · exact hfalse
    · cases hr
    · cases hspent
  · -- A run of so many steps is not longer than an evaluation with so much fuel.
    rintro ⟨steps, hsteps⟩
    rw [hrun] at hsteps
    rcases hends steps with ⟨hfalse, -⟩ | ⟨r', k, hr', hk, -⟩ | ⟨-, hnone⟩
    · exact hfalse.elim
    · obtain rfl := report_eq hsteps hk
      exact ⟨steps, fun n hn => Program.report?_eval_of_le hr' hn⟩
    · rw [hnone] at hsteps
      cases hsteps
  · -- An evaluation that has come to an end is not spent, so the run ends as it does.
    rintro ⟨fuel, hfuel⟩
    have hr := hfuel fuel (Nat.le_refl fuel)
    rcases hends fuel with ⟨hfalse, -⟩ | ⟨r', k, hr', hk, -⟩ | ⟨hspent, -⟩
    · exact hfalse.elim
    · rw [hr] at hr'
      cases hr'
      exact ⟨k, (hrun k).trans hk⟩
    · rw [hspent] at hr
      cases hr

/-- Adds up the numbers from the one that is read down to 1, by a procedure that calls itself and
works on variables of the block around it. -/
def countdown : String :=
  "var n, s; procedure add; begin s := s + n; n := n - 1; if n > 0 then call add end;
  begin ? n; s := 0; call add; ! s end."

theorem countdown_run :
    ∃ p u, Program.ofSource countdown = .ok p ∧ compile countdown "main" = .ok u ∧
      u.labelCount < 2 ^ 32 ∧ (∀ e ∈ p.analyze.1.expressions, e.need ≤ maxOperandStack) ∧
      u.run 100 [51, 10] = some ⟨⟨[], "6\n"⟩, none⟩ ∧
      ∃ fuel, ∀ n, fuel ≤ n → (p.analyze.1.eval n [51, 10]).report? = some ⟨⟨[], "6\n"⟩, none⟩ := by
  have hcheck : (match Program.ofSource countdown, compile countdown "main" with
      | .ok p, .ok u => decide (u.labelCount < 2 ^ 32 ∧
          (∀ e ∈ p.analyze.1.expressions, e.need ≤ maxOperandStack) ∧
          u.run 100 [51, 10] = some ⟨⟨[], "6\n"⟩, none⟩)
      | _, _ => false) = true := by decide +kernel
  split at hcheck
  · rename_i p u hsource hcompile
    obtain ⟨hlabels, hneed, hrun⟩ := of_decide_eq_true hcheck
    exact ⟨p, u, hsource, hcompile, hlabels, hneed, hrun,
      ((CodeUnit.run_iff_eval countdown "main" hsource hcompile hlabels hneed [51, 10]).2 _).mp
        ⟨100, hrun⟩⟩
  · cases hcheck

/-- **Compiled programs are safe.**  A compiled unit can be started on any input, and if a run of it
fails, the reason is one of those expected or an overflow of the operand stack. -/
theorem CodeUnit.run_fault_expected (source unitName : String) {u : CodeUnit}
    (hcompile : compile source unitName = .ok u)
    (hlabels : u.labelCount < 2 ^ 32) (input : List UInt8) :
    (∃ image s, Machine.begin u input = .ok (image, s)) ∧
    ∀ steps r f, u.run steps input = some r → r.fault = some f →
      f.IsExpected ∨ f = .stackOverflow := by
  obtain ⟨p, hsource⟩ := exists_source_of_compile hcompile
  obtain ⟨l, image, R, hanalyzed, hinstalled, hR, hbegin⟩ :=
    begin_of_compile hsource hcompile hlabels
  refine ⟨⟨image, Program.entered R input, hbegin input⟩, fun steps r f hrun hf => ?_⟩
  rw [show u.run steps input = runFrom image steps (Program.entered R input) from by
    simp only [CodeUnit.run, hbegin]] at hrun
  have hleads := Program.leads_eval (o := True) hanalyzed hinstalled
    (fun _ _ h => (h trivial).elim) hR steps input
  rcases hleads.ends with ⟨-, k, c, hoverflow⟩ | ⟨r', k, -, hk, hexpected⟩ | ⟨-, hnone⟩
  · obtain rfl := report_eq hrun hoverflow
    exact .inr (Option.some.inj hf).symm
  · obtain rfl := report_eq hrun hk
    exact .inl (hexpected f hf)
  · rw [hnone] at hrun
    cases hrun

/-- Divides by the number that is read. -/
def quotient : String := "var x; begin ? x; ! 7 / x end."

theorem quotient_run :
    ∃ u, compile quotient "main" = .ok u ∧ u.labelCount < 2 ^ 32 ∧
      (∃ image s, Machine.begin u [48, 10] = .ok (image, s)) ∧
      u.run 20 [48, 10] = some ⟨⟨[], ""⟩, some .divisionByZero⟩ ∧
      (MachineFault.divisionByZero.IsExpected ∨ MachineFault.divisionByZero = .stackOverflow) := by
  have hcheck : (match compile quotient "main" with
      | .ok u => decide (u.labelCount < 2 ^ 32 ∧
          u.run 20 [48, 10] = some ⟨⟨[], ""⟩, some .divisionByZero⟩)
      | _ => false) = true := by decide +kernel
  split at hcheck
  · rename_i u hcompile
    obtain ⟨hlabels, hrun⟩ := of_decide_eq_true hcheck
    obtain ⟨hbegin, hfaults⟩ :=
      CodeUnit.run_fault_expected quotient "main" hcompile hlabels [48, 10]
    exact ⟨u, hcompile, hlabels, hbegin, hrun, hfaults 20 _ _ hrun rfl⟩
  · cases hcheck

end PLZero
