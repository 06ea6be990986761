import PLZero.Proofs.Typing.Stability

/-!
# The loop of passes

`Engine.Loops` is the loop that inference runs, with no budget: pass after pass until one fails or,
two at least having been made, one fills nothing.  A pass that fills a slot leaves fewer to fill, so
the loop ends from every engine and every program, and `Engine.fixpoint` runs it to its end
(`Engine.loops_fixpoint`).

* `Engine.Loops.last` — what every pass keeps holds when the last one begins.
* `Engine.Loops.count_le` — how many passes it takes, by the slots that were empty.
* `Program.inferTypes_terminates` — the loop of inference ends, after two passes at least and not
  many more than there are slots.
-/

namespace PLZero

open Slotted (slots)

/-! ## Empty slots -/

namespace Engine

/-- The slots that are still empty. -/
def potential (s : Engine) (p : Program) : Nat := (slots p).count none + s.blanks

theorem potential_pass (strict : Bool) (s : Engine) (p : Program) :
    (s.pass strict p).state.potential (s.pass strict p).tree +
      (s.pass strict p).state.changed.toNat ≤ s.potential p := by
  have h := (s.fills_pass strict p).filling.potential_le
  simpa [potential, unmark, blanks] using h

theorem size_foldl_note (ds : List Decl) (s : Engine) :
    (ds.foldl note s).entries.size = s.entries.size := by
  induction ds generalizing s with
  | nil => rfl
  | cons d ds ih => rw [List.foldl_cons, ih]; simp [note]

theorem size_ofProgram (p : Program) : (ofProgram p).entries.size = p.declCount := by
  rw [ofProgram, size_foldl_note, Array.size_replicate]

theorem potential_ofProgram_le (p : Program) :
    (ofProgram p).potential p ≤ p.declCount + p.expressions.length := by
  have hslots : (slots p).count none ≤ p.expressions.length := by
    have := List.count_le_length (a := (none : Option Ty)) (l := slots p)
    simpa [slots] using this
  have hblanks : (ofProgram p).blanks ≤ p.declCount := by
    rw [← size_ofProgram]
    exact Array.countP_le_size
  rw [potential]
  omega

end Engine

/-! ## Passes that fill nothing -/

mutual

theorem Decl.stable_writeBack {s s' : Engine} : (d : Decl) → d.Stable s → (d.writeBack s').Stable s
  | .const .., _ => trivial
  | .var _, _ => trivial
  | .procedure _ decls _, ⟨hdecls, hstable, hstmt⟩ =>
    ⟨Decl.declared_writeBackList decls hdecls, Decl.stableList_writeBack decls hstable, hstmt⟩

theorem Decl.stableList_writeBack {s s' : Engine} :
    (ds : List Decl) → Decl.StableList s ds → Decl.StableList s (Decl.writeBackList s' ds)
  | [], _ => trivial
  | d :: ds, ⟨hd, hds⟩ => ⟨Decl.stable_writeBack d hd, Decl.stableList_writeBack ds hds⟩

theorem Decl.declared_writeBackList {s s' : Engine} :
    (ds : List Decl) → (∀ d ∈ ds, d.Declared s) → ∀ d ∈ Decl.writeBackList s' ds, d.Declared s
  | [], _ => by simp [Decl.writeBackList]
  | d :: ds, h => by
    rw [List.forall_mem_cons] at h
    rw [Decl.writeBackList, List.forall_mem_cons]
    refine ⟨?_, Decl.declared_writeBackList ds h.2⟩
    cases d <;> exact h.1

end

namespace Engine

variable {s : Engine} {p : Program}

/-- **A pass that fills nothing leaves a stable program**, and its engine as it was. -/
theorem pass_of_quiet (h : Walk.Quiet (s.pass false p)) :
    s.pass false p = .done (written s.unmark p p.block) s.unmark ∧
      (written s.unmark p p.block).block.Stable s.unmark := by
  have hvisit : Walk.Quiet (s.visit false p) := by
    rw [pass_eq] at h
    cases hf : (s.visit false p).fault with
    | some f =>
      rw [hf] at h
      exact absurd h Walk.Quiet.not_stop
    | none =>
      rw [hf] at h
      exact ⟨hf, Walk.Quiet.done_iff.mp h⟩
  obtain ⟨hdone, hstable⟩ := stable_of_quiet_visit hvisit
  refine ⟨by rw [pass_eq, hdone]; rfl, ?_, ?_, hstable.stmt⟩
  · exact Decl.declared_writeBackList _ hstable.declared
  · exact Decl.stableList_writeBack _ hstable.decls

/-- After a pass that fills nothing the next one fills nothing either. -/
theorem quiet_pass_again (h : Walk.Quiet (s.pass false p)) :
    Walk.Quiet ((s.pass false p).state.pass false (s.pass false p).tree) := by
  obtain ⟨hdone, hstable⟩ := pass_of_quiet h
  have hvisit := visit_of_stable (s := s.unmark) false hstable nofun
  rw [hdone, Walk.done_state, Walk.done_tree, pass_eq, hvisit]
  exact ⟨rfl, rfl⟩

/-! ## The loop -/

/-- From the engine `s` and the program `p`, with `done` passes behind, passes are made until one
fails or one fills nothing, at least `minPasses` having been made.  `w` is the last of them, and `n`
is the number of all that have not failed. -/
inductive Loops : (done : Nat) → Engine → Program → (w : Inferring Program) → (n : Nat) → Prop where
  | fails {done : Nat} {s : Engine} {p : Program} {fault : TypeFault} :
      (s.pass false p).fault = some fault → Loops done s p (s.pass false p) done
  | rests {done : Nat} {s : Engine} {p : Program} :
      Walk.Quiet (s.pass false p) → minPasses ≤ done + 1 →
      Loops done s p (s.pass false p) (done + 1)
  | again {done n : Nat} {s : Engine} {p : Program} {w : Inferring Program} :
      (s.pass false p).fault = none →
      done + 1 < minPasses ∨ (s.pass false p).state.changed = true →
      Loops (done + 1) (s.pass false p).state (s.pass false p).tree w n → Loops done s p w n

/-- **The loop ends**, and a budget above the number of empty slots brings `fixpoint` to its end;
one more is needed for a first pass that fills nothing. -/
theorem loops_fixpoint (budget done : Nat) (s : Engine) (p : Program)
    (hbudget : s.potential p + 1 + (1 - done) ≤ budget) :
    Loops done s p (fixpoint budget done s p).1 (fixpoint budget done s p).2 := by
  induction budget generalizing done s p with
  | zero => omega
  | succ n ih =>
    have hpass := potential_pass false s p
    simp only [fixpoint]
    split
    · rename_i fault hfault
      exact .fails hfault
    · rename_i hfault
      split
      · rename_i hquiet
        exact .rests ⟨hfault, by simpa using hquiet.2⟩ hquiet.1
      · rename_i hgo
        have hagain : done + 1 < minPasses ∨ (s.pass false p).state.changed = true := by
          by_cases hdone : done + 1 < minPasses
          · exact .inl hdone
          · exact .inr (by simpa [Nat.not_lt.mp hdone] using hgo)
        refine .again hfault hagain (ih (done + 1) _ _ ?_)
        rcases hagain with hfirst | hchanged
        · rw [minPasses] at hfirst
          omega
        · rw [hchanged, Bool.toNat_true] at hpass
          omega

namespace Loops

variable {done n : Nat} {w : Inferring Program}

/-- What every pass keeps holds when the last pass begins, which fails or fills nothing. -/
theorem last {I : Engine → Program → Prop}
    (hstep : ∀ s p, I s p → I (s.pass false p).state (s.pass false p).tree)
    (h : Loops done s p w n) (hI : I s p) :
    ∃ s' p', I s' p' ∧ w = s'.pass false p' ∧
      ((s'.pass false p').fault = none → Walk.Quiet (s'.pass false p')) := by
  induction h with
  | @fails _ s p _ hfault => exact ⟨s, p, hI, rfl, by simp [hfault]⟩
  | @rests _ s p hquiet _ => exact ⟨s, p, hI, rfl, fun _ => hquiet⟩
  | again _ _ _ ih => exact ih (hstep _ _ hI)

/-- With a pass behind, each further one but the last fills a slot. -/
theorem count_le_of_pos (h : Loops done s p w n) (hok : w.fault = none) (hdone : 0 < done) :
    done < n ∧ n ≤ done + s.potential p + 1 := by
  induction h with
  | fails hfault =>
    rw [hfault] at hok
    cases hok
  | rests => omega
  | @again done n s p _ _ hgo _ ih =>
    have hpass := potential_pass false s p
    have hchanged : (s.pass false p).state.changed = true :=
      hgo.resolve_left (by simp only [minPasses]; omega)
    rw [hchanged, Bool.toNat_true] at hpass
    have hrest := ih hok (by omega)
    omega

/-- **How many passes the loop takes.**  A first pass that fills nothing is followed by just one. -/
theorem count_le (h : Loops 0 s p w n) (hok : w.fault = none) :
    2 ≤ n ∧ n ≤ max 2 (s.potential p + 1) := by
  cases h with
  | fails hfault =>
    rw [hfault] at hok
    cases hok
  | rests _ hmin => simp [minPasses] at hmin
  | again hfault _ hrest =>
    obtain ⟨hmore, hle⟩ := hrest.count_le_of_pos hok Nat.one_pos
    refine ⟨hmore, ?_⟩
    cases hchanged : (s.pass false p).state.changed with
    | true =>
      have hpass := potential_pass false s p
      rw [hchanged, Bool.toNat_true] at hpass
      omega
    | false =>
      have hquiet := quiet_pass_again ⟨hfault, hchanged⟩
      cases hrest with
      | fails hfails => simp [hquiet.1] at hfails
      | rests => omega
      | again _ hgo _ => simp [minPasses, hquiet.2] at hgo

end Loops

/-- What inference makes of the last pass of the loop and the number of passes: a strict pass
follows, unless the last one has failed. -/
def conclude (w : Inferring Program) (n : Nat) : Program × Except TypeFault Nat :=
  let checked := w.onward fun p s => s.pass true p
  match checked.fault with
  | some fault => (checked.tree, .error fault)
  | none => (checked.tree, .ok n)

theorem conclude_ok {w : Inferring Program} {n m : Nat} (h : (conclude w n).2 = .ok m) :
    w.fault = none ∧ m = n := by
  simp only [conclude] at h
  split at h
  · cases h
  · rename_i hfault
    exact ⟨(Walk.fault_onward.mp hfault).1, (Except.ok.inj h).symm⟩

end Engine

/-! ## Inference -/

namespace Program

/-- What the passes come to that are not strict. -/
def passes (p : Program) : Inferring Program :=
  (Engine.fixpoint (p.declCount + p.expressions.length + Engine.minPasses) 0
    (Engine.ofProgram p) p).1

/-- Inference runs the loop to its end and concludes from its last pass. -/
theorem inferTypes_loops (p : Program) :
    ∃ n, (Engine.ofProgram p).Loops 0 p p.passes n ∧ p.inferTypes = Engine.conclude p.passes n := by
  refine ⟨_, Engine.loops_fixpoint _ 0 (Engine.ofProgram p) p ?_, rfl⟩
  have hslots := Engine.potential_ofProgram_le p
  simp only [Engine.minPasses]
  omega

/-- **Inference terminates on every program**, whatever its names are bound to and its slots hold:
the loop of passes ends from every engine, and where inference succeeds it has taken two passes at
least, and at most one more than there are declarations and expressions. -/
theorem inferTypes_terminates (p : Program) :
    (∀ s : Engine, ∃ w n, s.Loops 0 p w n) ∧
    (∃ w n, (Engine.ofProgram p).Loops 0 p w n ∧ p.inferTypes = Engine.conclude w n) ∧
    ∀ n, p.inferTypes.2 = .ok n → 2 ≤ n ∧ n ≤ max 2 (p.declCount + p.expressions.length + 1) := by
  obtain ⟨m, hloops, heq⟩ := p.inferTypes_loops
  refine ⟨fun s => ⟨_, _, Engine.loops_fixpoint _ 0 s p (Nat.le_refl _)⟩, ⟨_, m, hloops, heq⟩, ?_⟩
  intro n hn
  rw [heq] at hn
  obtain ⟨hok, rfl⟩ := Engine.conclude_ok hn
  obtain ⟨hleast, hmost⟩ := hloops.count_le hok
  have hslots := Engine.potential_ofProgram_le p
  exact ⟨hleast, by omega⟩

/-- `var x, y; x := y; ! x - 1.` as a tree that no parser has made: the type of `y` is known only in
the second pass. -/
def copiedVariable : Program :=
  let token : Token := ⟨.eof, .start, ""⟩
  let x : Ident := ⟨token, some 0, none⟩
  let y : Ident := ⟨token, some 1, none⟩
  ⟨⟨[.var ⟨0, token, none, none⟩, .var ⟨1, token, none, none⟩],
    .begin token [.assign x (.use y none),
      .output token (.binary token none (.arith .sub) (.use x none)
        (.literal token none (.int 1)))]⟩, token, 2⟩

theorem copiedVariable_terminates :
    copiedVariable.inferTypes.2 = .ok 3 ∧ 2 ≤ 3 ∧
      3 ≤ max 2 (copiedVariable.declCount + copiedVariable.expressions.length + 1) :=
  ⟨rfl, (inferTypes_terminates copiedVariable).2.2 3 rfl⟩

end Program

end PLZero
