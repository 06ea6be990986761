import PLZero.Proofs.Machine.Runs

/-!
# Single instructions

What one step does, instruction by instruction, in the form in which the code of expressions and
statements uses it.

* `withPc` — the activations, with the current one at some position of its code.
* `LoadedRoutine.Has` — a piece of code stands at a position of a routine.
* `Machine.Running` — the current activation runs a given routine of the image.
* `Machine.Advances` — an instruction does nothing but turn one operand stack into another.
-/

namespace PLZero

/-! ## Code -/

/-- The activations, with the current one at position `pc`. -/
def withPc (fs : Array Activation) (pc : Nat) : Array Activation :=
  fs.modify (fs.size - 1) fun a => { a with pc := pc }

@[simp] theorem size_withPc (fs : Array Activation) (pc : Nat) : (withPc fs pc).size = fs.size := by
  simp [withPc]

@[simp] theorem withPc_withPc (fs : Array Activation) (pc pc' : Nat) :
    withPc (withPc fs pc) pc' = withPc fs pc' := by
  apply Array.ext_getElem?
  intro i
  simp only [withPc, Array.size_modify, Array.getElem?_modify]
  split <;> simp [Function.comp_def]

theorem back?_withPc (fs : Array Activation) (pc : Nat) :
    (withPc fs pc).back? = fs.back?.map fun a => { a with pc := pc } := by
  simp [withPc, Array.back?_eq_getElem?, Array.getElem?_modify]

namespace LoadedRoutine

variable {R : LoadedRoutine} {pc : Nat} {i : Instr} {seg seg' : List Instr}

/-- The instructions stand in the routine from position `pc` on. -/
def Has (R : LoadedRoutine) (pc : Nat) (seg : List Instr) : Prop :=
  ∀ k i, seg[k]? = some i → R.code[pc + k]? = some i

theorem has_cons : R.Has pc (i :: seg) ↔ R.code[pc]? = some i ∧ R.Has (pc + 1) seg := by
  constructor
  · intro h
    refine ⟨h 0 i rfl, fun k j hj => ?_⟩
    rw [show pc + 1 + k = pc + (k + 1) from by omega]
    exact h (k + 1) j hj
  · rintro ⟨hi, hseg⟩ k j hj
    cases k with
    | zero =>
      cases hj
      exact hi
    | succ k =>
      rw [show pc + (k + 1) = pc + 1 + k from by omega]
      exact hseg k j hj

theorem has_nil : R.Has pc [] := by
  intro k i hi
  cases hi

theorem has_append : R.Has pc (seg ++ seg') ↔ R.Has pc seg ∧ R.Has (pc + seg.length) seg' := by
  induction seg generalizing pc with
  | nil => simp [has_nil]
  | cons i seg ih =>
    rw [List.cons_append, has_cons, has_cons, ih, and_assoc, List.length_cons,
      show pc + (seg.length + 1) = pc + 1 + seg.length from by omega]

theorem has_of_code (before rest : List Instr) (h : R.code = (before ++ seg ++ rest).toArray) :
    R.Has before.length seg := by
  intro k i hi
  have hlt := (List.getElem?_eq_some_iff.mp hi).1
  rw [h, List.getElem?_toArray, List.append_assoc, List.getElem?_append_right (by omega),
    Nat.add_sub_cancel_left, List.getElem?_append_left hlt, hi]

/-- Every label of the code is found where it stands. -/
def Labelled (R : LoadedRoutine) : Prop :=
  ∀ pc l, R.code[pc]? = some (.label l) → R.labels.lookup l = some pc

end LoadedRoutine

namespace Machine

variable {image : Image} {r : Nat} {R : LoadedRoutine} {fs : Array Activation} {st : Array Value}
  {c : Console} {pc : Nat} {i : Instr}

/-- The current activation runs routine `r`, which is `R`. -/
structure Running (image : Image) (r : Nat) (R : LoadedRoutine) (fs : Array Activation) : Prop where
  routine : fs.back?.map Activation.routine = some r
  loaded : image[r]? = some R
  labelled : R.Labelled

theorem Running.back (h : Running image r R fs) : ∃ a, fs.back? = some a ∧ a.routine = r :=
  Option.map_eq_some_iff.mp h.routine

theorem Running.pos (h : Running image r R fs) : 0 < fs.size := by
  obtain ⟨a, ha, -⟩ := h.back
  exact Array.size_pos_of_mem (Array.mem_of_back? ha)

theorem Running.live (h : Running image r R fs) : State.isFinal ⟨st, withPc fs pc, c⟩ = false := by
  obtain ⟨a, ha, _⟩ := h.back
  have hne : fs ≠ #[] := by
    rintro rfl
    cases ha
  simpa [State.isFinal, ← Array.size_eq_zero_iff] using hne

theorem step_eq (h : Running image r R fs) (hi : R.code[pc]? = some i) :
    step image ⟨st, withPc fs pc, c⟩ = exec image r i ⟨st, withPc fs (pc + 1), c⟩ := by
  obtain ⟨a, ha, rfl⟩ := h.back
  have hback : (withPc fs pc).back? = some { a with pc := pc } := by rw [back?_withPc, ha]; rfl
  have hcode : (image[a.routine]?.bind fun r => r.code[pc]?) = some i := by simp [h.loaded, hi]
  have hset : setPc (pc + 1) ⟨st, withPc fs pc, c⟩ = .ok () ⟨st, withPc fs (pc + 1), c⟩ := by
    rw [← withPc_withPc fs pc (pc + 1)]
    rfl
  simp only [step, current, bind, EStateM.bind, hback, hcode, hset]

theorem takes_of_exec {t : State} (h : Running image r R fs) (hi : R.code[pc]? = some i)
    (hexec : exec image r i ⟨st, withPc fs (pc + 1), c⟩ = .ok () t) :
    Takes image 1 ⟨st, withPc fs pc, c⟩ t :=
  .one ((step_eq h hi).trans hexec)

theorem runFrom_of_exec {t : State} {f : MachineFault} (h : Running image r R fs)
    (hi : R.code[pc]? = some i) (hexec : exec image r i ⟨st, withPc fs (pc + 1), c⟩ = .error f t) :
    runFrom image 1 ⟨st, withPc fs pc, c⟩ = some ⟨t.console, some f⟩ :=
  runFrom_error h.live ((step_eq h hi).trans hexec)

/-! ## Operands -/

theorem get_eq {ε : Type} (s : State) : (get : EStateM ε State State) s = .ok s s := rfl

@[simp] theorem pop_push (v : Value) : pop ⟨st.push v, fs, c⟩ = .ok v ⟨st, fs, c⟩ := by
  simp [pop]

@[simp] theorem popInt_push (n : Int32) : popInt ⟨st.push (.int n), fs, c⟩ = .ok n ⟨st, fs, c⟩ := by
  simp only [popInt, bind, EStateM.bind, pop_push]
  rfl

@[simp] theorem popBool_push (b : Bool) :
    popBool ⟨st.push (.bool b), fs, c⟩ = .ok b ⟨st, fs, c⟩ := by
  simp only [popBool, bind, EStateM.bind, pop_push]
  rfl

@[simp] theorem popStr_push (s : String) :
    popStr ⟨st.push (.str s), fs, c⟩ = .ok s ⟨st, fs, c⟩ := by
  simp only [popStr, bind, EStateM.bind, pop_push]
  rfl

/-- The action gives the state `t`, or it overflows, which it may only if `o` holds. -/
def Gives (o : Prop) (m : Act Unit) (s t : State) : Prop :=
  m s = .ok () t ∨ (o ∧ ∃ u, m s = .error .stackOverflow u)

variable {o : Prop}

theorem gives_push (v : Value) (hroom : ¬o → st.size < maxOperandStack) :
    Gives o (push v) ⟨st, fs, c⟩ ⟨st.push v, fs, c⟩ := by
  by_cases hlt : st.size < maxOperandStack
  · exact .inl (by simp [push, hlt])
  · refine .inr ⟨Classical.byContradiction fun ho => hlt (hroom ho), ⟨st, fs, c⟩, ?_⟩
    simp [push, hlt]

theorem Gives.push_bind {v : Value} {next : Unit → Act Unit} {t : State}
    (hroom : ¬o → st.size < maxOperandStack) (hnext : Gives o (next ()) ⟨st.push v, fs, c⟩ t) :
    Gives o (push v >>= next) ⟨st, fs, c⟩ t := by
  have hpush : Gives o (push v) ⟨st, fs, c⟩ ⟨st.push v, fs, c⟩ := gives_push v hroom
  rcases hpush with h | ⟨ho, u, h⟩
  · simpa only [Gives, bind, EStateM.bind, h] using hnext
  · exact .inr ⟨ho, u, by simp only [bind, EStateM.bind, h]⟩

/-- The instruction turns the stack `st` into `st'`. -/
def Advances (image : Image) (o : Prop) (r : Nat) (i : Instr) (st st' : Array Value) : Prop :=
  ∀ fs c, Gives o (exec image r i) ⟨st, fs, c⟩ ⟨st', fs, c⟩

/-- The instructions turn the stack `st` into `st'`, one after the other. -/
inductive Transforms (image : Image) (o : Prop) (r : Nat) :
    List Instr → Array Value → Array Value → Prop where
  | nil (st : Array Value) : Transforms image o r [] st st
  | cons {i : Instr} {seg : List Instr} {st st₁ st' : Array Value} : Advances image o r i st st₁ →
      Transforms image o r seg st₁ st' → Transforms image o r (i :: seg) st st'

section Leads

variable {α : Type} {n : Nat} {out : Outcome α} {post : α → State → Prop}
  {broken : State → Prop}

theorem Leads.gives {t : State} (h : Running image r R fs) (hi : R.code[pc]? = some i)
    (hgives : Gives o (exec image r i) ⟨st, withPc fs (pc + 1), c⟩ t)
    (hnext : Leads image o n t out post broken) :
    Leads image o (n + 1) ⟨st, withPc fs pc, c⟩ out post broken := by
  rcases hgives with hok | ⟨ho, u, herr⟩
  · rw [Nat.add_comm]
    exact hnext.of_takes (takes_of_exec h hi hok)
  · exact .inl ⟨ho, 1, u.console, runFrom_of_exec h hi herr⟩

theorem Leads.advance {st' : Array Value} (h : Running image r R fs) (hi : R.code[pc]? = some i)
    (hadv : Advances image o r i st st')
    (hnext : Leads image o n ⟨st', withPc fs (pc + 1), c⟩ out post broken) :
    Leads image o n ⟨st, withPc fs pc, c⟩ out post broken :=
  (Leads.gives h hi (hadv _ _) hnext).of_le (Nat.le_succ n)

theorem Leads.transform {seg : List Instr} {st' : Array Value} (h : Running image r R fs)
    (hhas : R.Has pc seg) (htrans : Transforms image o r seg st st')
    (hnext : Leads image o n ⟨st', withPc fs (pc + seg.length), c⟩ out post broken) :
    Leads image o n ⟨st, withPc fs pc, c⟩ out post broken := by
  induction htrans generalizing pc with
  | nil => exact hnext
  | cons hadv _ ih =>
    rw [LoadedRoutine.has_cons] at hhas
    rw [List.length_cons, Nat.add_comm _ 1, ← Nat.add_assoc] at hnext
    exact .advance h hhas.1 hadv (ih hhas.2 hnext)

/-- An instruction that fails. -/
theorem Leads.fail {f : MachineFault} {u : State} (h : Running image r R fs)
    (hi : R.code[pc]? = some i) (hexec : exec image r i ⟨st, withPc fs (pc + 1), c⟩ = .error f u)
    (hf : f.IsExpected) (hbroken : broken u) :
    Leads image o n ⟨st, withPc fs pc, c⟩ (.failed f u.console) post broken :=
  .inr ⟨hf, u, ⟨0, _, .refl _, (step_eq h hi).trans hexec⟩, rfl, hbroken⟩

end Leads

theorem advances_push (v : Value) (hroom : ¬o → st.size < maxOperandStack) :
    Advances image o r (.push v) st (st.push v) := fun _ _ => gives_push v hroom

theorem advances_arith {op : Arith} {a b n : Int32} (h : arith op a b = .ok n)
    (hroom : ¬o → st.size < maxOperandStack) :
    Advances image o r (.arith op) ((st.push (.int a)).push (.int b)) (st.push (.int n)) := by
  intro fs c
  simp only [Gives, exec, bind, EStateM.bind, popInt_push, h, liftExcept]
  exact gives_push _ hroom

theorem exec_arith_error {op : Arith} {a b : Int32} {f : MachineFault}
    (h : arith op a b = .error f) :
    exec image r (.arith op) ⟨(st.push (.int a)).push (.int b), fs, c⟩ = .error f ⟨st, fs, c⟩ := by
  simp only [exec, bind, EStateM.bind, popInt_push, h, liftExcept]
  rfl

theorem advances_and (a b : Bool) (hroom : ¬o → st.size < maxOperandStack) :
    Advances image o r .and ((st.push (.bool a)).push (.bool b)) (st.push (.bool (a && b))) := by
  intro fs c
  simp only [Gives, exec, bind, EStateM.bind, popBool_push]
  exact gives_push _ hroom

theorem advances_or (a b : Bool) (hroom : ¬o → st.size < maxOperandStack) :
    Advances image o r .or ((st.push (.bool a)).push (.bool b)) (st.push (.bool (a || b))) := by
  intro fs c
  simp only [Gives, exec, bind, EStateM.bind, popBool_push]
  exact gives_push _ hroom

theorem advances_concat (a b : String) (hroom : ¬o → st.size < maxOperandStack) :
    Advances image o r .concat ((st.push (.str a)).push (.str b)) (st.push (.str (a ++ b))) := by
  intro fs c
  simp only [Gives, exec, bind, EStateM.bind, popStr_push]
  exact gives_push _ hroom

theorem advances_pop (v : Value) : Advances image o r .pop (st.push v) st := by
  intro fs c
  left
  simp only [exec, bind, EStateM.bind, pop_push]
  rfl

theorem advances_swap (a b : Value) (hroom : ¬o → st.size + 2 ≤ maxOperandStack) :
    Advances image o r .swap ((st.push a).push b) ((st.push b).push a) := by
  intro fs c
  have h : Gives o (push b >>= fun _ => push a) ⟨st, fs, c⟩ ⟨(st.push b).push a, fs, c⟩ :=
    .push_bind (fun ho => by have := hroom ho; omega)
      (gives_push a fun ho => by have := hroom ho; simp only [Array.size_push]; omega)
  simpa only [Gives, exec, bind, EStateM.bind, pop_push] using h

theorem advances_dup2 (a b : Value) (hroom : ¬o → st.size + 4 ≤ maxOperandStack) :
    Advances image o r .dup2 ((st.push a).push b) ((((st.push a).push b).push a).push b) := by
  intro fs c
  have h : Gives o (push a >>= fun _ => push b >>= fun _ => push a >>= fun _ => push b) ⟨st, fs, c⟩
      ⟨(((st.push a).push b).push a).push b, fs, c⟩ := by
    refine .push_bind (fun ho => ?_) (.push_bind (fun ho => ?_) (.push_bind (fun ho => ?_)
      (gives_push b fun ho => ?_))) <;> have := hroom ho <;> grind
  simpa only [Gives, exec, bind, EStateM.bind, pop_push] using h

theorem advances_dupX2 (x y z : Value) (hroom : ¬o → st.size + 4 ≤ maxOperandStack) :
    Advances image o r .dupX2 (((st.push x).push y).push z)
      ((((st.push z).push x).push y).push z) := by
  intro fs c
  have h : Gives o (push z >>= fun _ => push x >>= fun _ => push y >>= fun _ => push z) ⟨st, fs, c⟩
      ⟨(((st.push z).push x).push y).push z, fs, c⟩ := by
    refine .push_bind (fun ho => ?_) (.push_bind (fun ho => ?_) (.push_bind (fun ho => ?_)
      (gives_push z fun ho => ?_))) <;> have := hroom ho <;> grind
  simpa only [Gives, exec, bind, EStateM.bind, pop_push] using h

theorem advances_strEquals (a b : String) (hroom : ¬o → st.size < maxOperandStack) :
    Advances image o r .strEquals ((st.push (.str a)).push (.str b)) (st.push (.bool (a = b))) := by
  intro fs c
  simp only [Gives, exec, bind, EStateM.bind, popStr_push]
  exact gives_push _ hroom

theorem advances_startsWith (a b : String) (hroom : ¬o → st.size < maxOperandStack) :
    Advances image o r .startsWith ((st.push (.str a)).push (.str b))
      (st.push (.bool (isStart b a))) := by
  intro fs c
  simp only [Gives, exec, bind, EStateM.bind, popStr_push]
  exact gives_push _ hroom

theorem advances_endsWith (a b : String) (hroom : ¬o → st.size < maxOperandStack) :
    Advances image o r .endsWith ((st.push (.str a)).push (.str b))
      (st.push (.bool (isEnd b a))) := by
  intro fs c
  simp only [Gives, exec, bind, EStateM.bind, popStr_push]
  exact gives_push _ hroom

theorem advances_not (b : Bool) (hroom : ¬o → st.size < maxOperandStack) :
    Advances image o r .not (st.push (.bool b)) (st.push (.bool !b)) := by
  intro fs c
  simp only [Gives, exec, bind, EStateM.bind, pop_push, Value.negate, liftExcept]
  exact gives_push _ hroom

theorem advances_label (l : Label) : Advances image o r (.label l) st st := fun _ _ => .inl rfl

/-! ## Jumps -/

theorem jump_eq {l : Label} {target : Nat} (h : Running image r R fs)
    (hl : R.code[target]? = some (.label l)) :
    jump image r l ⟨st, withPc fs pc, c⟩ = .ok () ⟨st, withPc fs target, c⟩ := by
  have hlookup : (image[r]?.bind fun r => r.labels.lookup l) = some target := by
    simp [h.loaded, h.labelled target l hl]
  rw [← withPc_withPc fs pc target]
  simp only [jump, hlookup]
  rfl

theorem exec_ifBool {b value : Bool} {l : Label} {target : Nat} (h : Running image r R fs)
    (hl : R.code[target]? = some (.label l)) :
    exec image r (.ifBool value l) ⟨st.push (.bool b), withPc fs pc, c⟩ =
      .ok () ⟨st, withPc fs (if b = value then target else pc), c⟩ := by
  simp only [exec, bind, EStateM.bind, popBool_push]
  split
  · exact jump_eq h hl
  · rfl

theorem exec_ifStr {a b : String} {equal : Bool} {l : Label} {target : Nat}
    (h : Running image r R fs) (hl : R.code[target]? = some (.label l)) :
    exec image r (.ifStr equal l) ⟨(st.push (.str a)).push (.str b), withPc fs pc, c⟩ =
      .ok () ⟨st, withPc fs (if decide (a = b) = equal then target else pc), c⟩ := by
  simp only [exec, bind, EStateM.bind, popStr_push]
  split
  · exact jump_eq h hl
  · rfl

theorem exec_ifCmp {a b : Value} {cond : Cond} {ord : Ordering} {l : Label} {target : Nat}
    (h : Running image r R fs) (hl : R.code[target]? = some (.label l))
    (hord : order? a b = some ord) :
    exec image r (.ifCmp cond l) ⟨(st.push a).push b, withPc fs pc, c⟩ =
      .ok () ⟨st, withPc fs (if cond.holds ord then target else pc), c⟩ := by
  simp only [exec, bind, EStateM.bind, pop_push, hord]
  split
  · exact jump_eq h hl
  · rfl

theorem enter_eq {callee : Nat} (link : Option Nat) (h : image[callee]? = some R) :
    enter image callee link ⟨st, fs, c⟩ =
      if maxCallDepth ≤ fs.size then .error .callDepth ⟨st, fs, c⟩
      else .ok () ⟨st, fs.push ⟨callee, 0, (R.locals.map Ty.default).toArray, link⟩, c⟩ := by
  simp only [enter, bind, EStateM.bind, get_eq, h]
  split <;> rfl

theorem exec_ret : exec image r .ret ⟨st, withPc fs pc, c⟩ = .ok () ⟨st, fs.pop, c⟩ := by
  have hpop : (withPc fs pc).pop = fs.pop := by
    apply Array.ext_getElem?
    intro i
    simp only [withPc, Array.getElem?_pop, Array.size_modify, Array.getElem?_modify]
    by_cases hi : i < fs.size - 1
    · rw [if_pos hi, if_pos hi, if_neg (by omega)]
    · rw [if_neg hi, if_neg hi]
  rw [← hpop]
  rfl

/-! ## Lines -/

theorem exec_print {ty : Ty} {v : Value} (h : v.ty = ty) :
    exec image r (.print ty) ⟨st.push v, fs, c⟩ = .ok () ⟨st, fs, c.write (v.text ++ "\n")⟩ := by
  have hprint : v.print ty = .ok (v.text ++ "\n") := by
    subst h
    cases v <;> rfl
  simp only [exec, bind, EStateM.bind, pop_push, hprint, liftExcept]
  rfl

theorem gives_read {ty : Ty} {v : Value} {c' : Console} (h : c.read ty = (.ok v, c'))
    (hroom : ¬o → st.size < maxOperandStack) :
    Gives o (exec image r (.read ty)) ⟨st, fs, c⟩ ⟨st.push v, fs, c'⟩ := by
  simp only [Gives, exec, bind, EStateM.bind, get_eq, h, liftExcept]
  exact gives_push v hroom

theorem exec_read_error {ty : Ty} {f : MachineFault} {c' : Console}
    (h : c.read ty = (.error f, c')) :
    exec image r (.read ty) ⟨st, fs, c⟩ = .error f ⟨st, fs, c'⟩ := by
  simp only [exec, bind, EStateM.bind, get_eq, h, liftExcept]
  rfl

end Machine

/-- What is read from a line has the type that was asked for, or the line is at fault. -/
theorem Console.read_cases {ty : Ty} (hty : ty.isValue = true) (c : Console) :
    (∃ v c', c.read ty = (.ok v, c') ∧ v.ty = ty) ∨
    ∃ f c', c.read ty = (.error f, c') ∧ f.IsExpected := by
  have hparse (line : List Char) : (∃ v, parse ty line = .ok v ∧ v.ty = ty) ∨
      ∃ f, parse ty line = .error f ∧ f.IsExpected := by
    cases ty with
    | number =>
      simp only [parse]
      split
      · exact .inl ⟨_, rfl, rfl⟩
      · exact .inr ⟨_, rfl, trivial⟩
    | boolean =>
      simp only [parse]
      split
      · exact .inl ⟨_, rfl, rfl⟩
      · split
        · exact .inl ⟨_, rfl, rfl⟩
        · exact .inr ⟨_, rfl, trivial⟩
    | string => exact .inl ⟨_, rfl, rfl⟩
    | procedure => cases hty
  unfold Console.read
  split
  · exact .inr ⟨_, _, rfl, trivial⟩
  · rename_i b bs _
    cases hsplit : splitLine (b :: bs) with
    | mk line rest =>
      simp only [parseLine]
      split
      · rename_i cs _
        rcases hparse cs with ⟨v, hv, hvty⟩ | ⟨f, hf, hexpected⟩
        · exact .inl ⟨v, _, by rw [hv], hvty⟩
        · exact .inr ⟨f, _, by rw [hf], hexpected⟩
      · exact .inr ⟨_, _, rfl, trivial⟩

end PLZero
