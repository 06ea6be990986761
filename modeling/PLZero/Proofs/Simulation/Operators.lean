import PLZero.Proofs.Code.Emission
import PLZero.Proofs.Machine.Instructions
import PLZero.Typing.Slot

/-!
# The code of operators

* `Machine.arith_eq`, `Cond.holds_compare` — the operations of the machine on numbers are those on
  integers, wrapped around to 32 bits.
* `Machine.leads_op` — with two operands on the stack, the code of an operator leaves the value that
  evaluation gives, or fails with the same fault.
-/

namespace PLZero

/-! ## Operations on values -/

namespace Value

variable {v : Value}

theorem exists_int (h : v.ty = .number) : ∃ n, v = .int n := by
  cases v with
  | int n => exact ⟨n, rfl⟩
  | _ => cases h

theorem exists_bool (h : v.ty = .boolean) : ∃ b, v = .bool b := by
  cases v with
  | bool b => exact ⟨b, rfl⟩
  | _ => cases h

theorem exists_str (h : v.ty = .string) : ∃ s, v = .str s := by
  cases v with
  | str s => exact ⟨s, rfl⟩
  | _ => cases h

end Value

/-- The arithmetic of the machine is that of the integers, wrapped around. -/
theorem Machine.arith_eq (op : Arith) (a b : Int32) :
    arith op a b = match op.onInt a.toInt b.toInt with
      | some n => .ok (wrap n)
      | none => .error .divisionByZero := by
  have hzero : b = 0 ↔ b.toInt = 0 := Int32.toInt_inj.symm
  have ha := And.intro a.minValue_le_toInt a.toInt_le
  have hb := And.intro b.minValue_le_toInt b.toInt_le
  cases op with
  | add => simp [arith, Arith.onInt, wrap, Int32.ofInt_add]
  | sub => simp [arith, Arith.onInt, wrap, Int32.ofInt_sub]
  | mul => simp [arith, Arith.onInt, wrap, Int32.ofInt_mul]
  | div =>
    by_cases h : b.toInt = 0
    · simp [arith, Arith.onInt, hzero.mpr h]
    · simp [arith, Arith.onInt, h, mt hzero.mp h, wrap, Int32.ofInt_tdiv ha.1 ha.2 hb.1 hb.2]
  | rem =>
    by_cases h : b.toInt = 0
    · simp [arith, Arith.onInt, hzero.mpr h]
    · simp [arith, Arith.onInt, h, mt hzero.mp h, wrap, Int32.ofInt_tmod ha.1 ha.2 hb.1 hb.2]

theorem Cond.holds_compare (cond : Cond) (a b : Int) :
    cond.holds (compare a b) = cond.onInt a b := by
  rw [Int.compare_eq_ite_lt]
  split
  · cases cond <;> simp [holds, onInt] <;> omega
  · split <;> cases cond <;> simp [holds, onInt] <;> omega

/-- On values that have an order, the order decides comparisons. -/
theorem Cond.eval_of_order {cond : Cond} {a b : Value} {ord : Ordering}
    (h : Machine.order? a b = some ord) : cond.eval a b = .ok (.bool (cond.holds ord)) := by
  cases a <;> cases b <;> cases h
  · rw [Cond.holds_compare, Cond.eval]
  · rename_i a b
    cases cond <;> cases a <;> cases b <;> rfl

/-! ## Code -/

/-- The most values that an operator has on the stack at one time, its operands included. -/
def Op.need : Op → Ty → Nat
  | .compare .lt, .string => 4
  | .compare .gt, .string => 4
  | _, _ => 2

theorem Op.two_le_need (op : Op) (operand : Ty) : 2 ≤ op.need operand := by
  unfold Op.need
  split <;> omega

namespace Machine

variable {image : Image} {o : Prop} {n r pc : Nat} {R : LoadedRoutine} {fs : Array Activation}
  {st : Array Value} {con : Console}

/-- The value `v` of type `ty` is on top of `st`, and the current activation is at `pc`. -/
def Pushed (st : Array Value) (fs : Array Activation) (pc : Nat) (con : Console) (ty : Ty)
    (v : Value) (t : State) : Prop :=
  v.ty = ty ∧ t = ⟨st.push v, withPc fs pc, con⟩

/-- Nothing is different but the position of the current activation and what lies above `st`. -/
def Undisturbed (st : Array Value) (fs : Array Activation) (con : Console) (t : State) : Prop :=
  ∃ pc above, t = ⟨st ++ above, withPc fs pc, con⟩

theorem Undisturbed.of_push {v : Value} {t : State} (h : Undisturbed (st.push v) fs con t) :
    Undisturbed st fs con t := by
  obtain ⟨pc, above, rfl⟩ := h
  exact ⟨pc, #[v] ++ above, by rw [← Array.append_assoc, Array.append_singleton]⟩

theorem leads_arith {op : Arith} {operand : Ty} {a b : Value} {i : Instr}
    (hop : op.instr? operand = some i) (ha : a.ty = operand) (hb : b.ty = operand)
    (hrun : Running image r R fs) (hi : R.code[pc]? = some i)
    (hroom : ¬o → st.size < maxOperandStack) :
    Leads image o n ⟨(st.push a).push b, withPc fs pc, con⟩ (.ofExcept con (op.eval a b))
      (Pushed st fs (pc + 1) con operand) (Undisturbed st fs con) := by
  cases operand with
  | number =>
    cases hop
    obtain ⟨x, rfl⟩ := Value.exists_int ha
    obtain ⟨y, rfl⟩ := Value.exists_int hb
    have harith := arith_eq op x y
    rw [Arith.eval]
    cases hint : op.onInt x.toInt y.toInt with
    | some m =>
      rw [hint] at harith
      exact .advance hrun hi (advances_arith harith hroom) (.done ⟨rfl, rfl⟩)
    | none =>
      rw [hint] at harith
      exact .fail hrun hi (exec_arith_error harith) trivial ⟨pc + 1, #[], rfl⟩
  | boolean =>
    obtain ⟨x, rfl⟩ := Value.exists_bool ha
    obtain ⟨y, rfl⟩ := Value.exists_bool hb
    cases op with
    | add =>
      cases hop
      exact .advance hrun hi (advances_or x y hroom) (.done ⟨rfl, rfl⟩)
    | mul =>
      cases hop
      exact .advance hrun hi (advances_and x y hroom) (.done ⟨rfl, rfl⟩)
    | _ => cases hop
  | string =>
    obtain ⟨x, rfl⟩ := Value.exists_str ha
    obtain ⟨y, rfl⟩ := Value.exists_str hb
    cases op with
    | add =>
      cases hop
      exact .advance hrun hi (advances_concat x y hroom) (.done ⟨rfl, rfl⟩)
    | _ => cases hop
  | procedure => cases op <;> cases hop

/-- A branch that is taken if `taken` is true leaves its negation. -/
theorem leads_branch {branch : Instr} {falsy join : Label} {taken : Bool} {st' : Array Value}
    (hrun : Running image r R fs)
    (hhas : R.Has pc [branch, .push (.bool true), .goto join, .label falsy, .push (.bool false),
      .label join])
    (hexec : ∀ target, R.code[target]? = some (.label falsy) →
      exec image r branch ⟨st', withPc fs (pc + 1), con⟩ =
        .ok () ⟨st, withPc fs (if taken then target else pc + 1), con⟩)
    (hroom : ¬o → st.size < maxOperandStack) :
    Leads image o n ⟨st', withPc fs pc, con⟩ (.done (.bool !taken))
      (Pushed st fs (pc + 6) con .boolean) (Undisturbed st fs con) := by
  simp only [LoadedRoutine.has_cons] at hhas
  obtain ⟨hbranch, htrue, hgoto, hfalsy, hfalse, hjoin, -⟩ := hhas
  refine .after (takes_of_exec hrun hbranch (hexec _ hfalsy)) ?_
  cases taken with
  | true =>
    refine .advance hrun hfalsy (advances_label falsy) ?_
    refine .advance hrun hfalse (advances_push _ hroom) ?_
    exact .advance hrun hjoin (advances_label join) (.done ⟨rfl, rfl⟩)
  | false =>
    refine .advance hrun htrue (advances_push _ hroom) ?_
    refine .after (takes_of_exec hrun hgoto (jump_eq hrun hjoin)) ?_
    exact .advance hrun hjoin (advances_label join) (.done ⟨rfl, rfl⟩)

/-- Numbers and booleans are compared by their order. -/
theorem leads_ifCmp {cond : Cond} {a b : Value} {ord : Ordering} {seg : List Instr} {c c' : Nat}
    (hcode : branchCode (.ifCmp cond.negate) c = .ok (seg, c')) (hord : order? a b = some ord)
    (hrun : Running image r R fs) (hhas : R.Has pc seg) (hroom : ¬o → st.size < maxOperandStack) :
    Leads image o n ⟨(st.push a).push b, withPc fs pc, con⟩ (.ofExcept con (cond.eval a b))
      (Pushed st fs (pc + seg.length) con .boolean) (Undisturbed st fs con) := by
  obtain ⟨rfl, rfl⟩ := code_branch hcode
  rw [Cond.eval_of_order hord, ← Bool.not_not (cond.holds ord), ← Cond.holds_negate]
  exact leads_branch hrun hhas (fun target hl => exec_ifCmp hrun hl hord) hroom

theorem leads_ifStr {equal : Bool} {x y : String} {seg : List Instr} {c c' : Nat}
    (hcode : branchCode (.ifStr equal) c = .ok (seg, c')) (hrun : Running image r R fs)
    (hhas : R.Has pc seg) (hroom : ¬o → st.size < maxOperandStack) :
    Leads image o n ⟨(st.push (.str x)).push (.str y), withPc fs pc, con⟩
      (.done (.bool !(decide (x = y) == equal))) (Pushed st fs (pc + seg.length) con .boolean)
      (Undisturbed st fs con) := by
  obtain ⟨rfl, rfl⟩ := code_branch hcode
  refine leads_branch hrun hhas (fun target hl => ?_) hroom
  simpa only [beq_iff_eq] using exec_ifStr hrun hl

theorem isStart_eq (x y : String) : isStart x y = decide (x.toList <+: y.toList) := by
  rw [isStart, Bool.eq_iff_iff, List.isPrefixOf_iff_prefix, decide_eq_true_iff]

theorem isEnd_eq (x y : String) : isEnd x y = decide (x.toList <:+ y.toList) := by
  rw [isEnd, Bool.eq_iff_iff, List.isSuffixOf_iff_suffix, decide_eq_true_iff]

/-- The code of the strict forms leaves whether the strings differ and the test holds. -/
theorem transforms_strict {test : Instr} {holds : String → String → Bool} {x y : String}
    (htest : ∀ st : Array Value, (¬o → st.size < maxOperandStack) →
      Advances image o r test ((st.push (.str y)).push (.str x)) (st.push (.bool (holds x y))))
    (hroom : ¬o → st.size + 4 ≤ maxOperandStack) :
    Transforms image o r (strictCode test) ((st.push (.str x)).push (.str y))
      (st.push (.bool (!decide (y = x) && holds x y))) := by
  refine .cons (advances_swap _ _ fun ho => ?_) ?_
  · have := hroom ho
    omega
  refine .cons (advances_dup2 _ _ hroom) ?_
  refine .cons (advances_strEquals _ _ fun ho => ?_) ?_
  · have := hroom ho
    grind
  refine .cons (advances_not _ fun ho => ?_) ?_
  · have := hroom ho
    grind
  refine .cons (advances_dupX2 _ _ _ hroom) ?_
  refine .cons (advances_pop _) ?_
  refine .cons (htest _ fun ho => ?_) ?_
  · have := hroom ho
    grind
  refine .cons (advances_and _ _ fun ho => ?_) (.nil _)
  have := hroom ho
  omega

/-- Strings are compared as starts and ends of one another. -/
theorem leads_stringCode {cond : Cond} {x y : String} {seg : List Instr} {c c' : Nat}
    (hcode : cond.stringCode c = .ok (seg, c')) (hrun : Running image r R fs) (hhas : R.Has pc seg)
    (hroom : ¬o → st.size + (Op.compare cond).need .string ≤ maxOperandStack) :
    Leads image o n ⟨(st.push (.str x)).push (.str y), withPc fs pc, con⟩
      (.done (.bool (cond.onStr x y))) (Pushed st fs (pc + seg.length) con .boolean)
      (Undisturbed st fs con) := by
  have htwo (ho : ¬o) : st.size + 2 ≤ maxOperandStack :=
    Nat.le_trans (Nat.add_le_add_left (Op.two_le_need _ _) _) (hroom ho)
  have hone (ho : ¬o) : st.size < maxOperandStack := by
    have := htwo ho
    omega
  cases cond with
  | eq =>
    rw [show Cond.onStr .eq x y = !(decide (x = y) == false) from by simp [Cond.onStr]]
    exact leads_ifStr hcode hrun hhas hone
  | ne =>
    rw [show Cond.onStr .ne x y = !(decide (x = y) == true) from by simp [Cond.onStr]]
    exact leads_ifStr hcode hrun hhas hone
  | lt =>
    obtain ⟨rfl, rfl⟩ := Emit.of_pure hcode
    rw [show Cond.onStr .lt x y = (!decide (y = x) && isStart x y) from by
      simp [Cond.onStr, isStart_eq, eq_comm, and_comm]]
    exact .transform hrun hhas (transforms_strict (fun _ => advances_startsWith y x) hroom)
      (.done ⟨rfl, rfl⟩)
  | le =>
    obtain ⟨rfl, rfl⟩ := Emit.of_pure hcode
    rw [show Cond.onStr .le x y = isStart x y from by simp [Cond.onStr, isStart_eq]]
    exact .transform hrun hhas (.cons (advances_swap _ _ htwo)
      (.cons (advances_startsWith y x hone) (.nil _))) (.done ⟨rfl, rfl⟩)
  | gt =>
    obtain ⟨rfl, rfl⟩ := Emit.of_pure hcode
    rw [show Cond.onStr .gt x y = (!decide (y = x) && isEnd x y) from by
      simp [Cond.onStr, isEnd_eq, eq_comm, and_comm]]
    exact .transform hrun hhas (transforms_strict (fun _ => advances_endsWith y x) hroom)
      (.done ⟨rfl, rfl⟩)
  | ge =>
    obtain ⟨rfl, rfl⟩ := Emit.of_pure hcode
    rw [show Cond.onStr .ge x y = isEnd x y from by simp [Cond.onStr, isEnd_eq]]
    exact .transform hrun hhas (.cons (advances_swap _ _ htwo)
      (.cons (advances_endsWith y x hone) (.nil _))) (.done ⟨rfl, rfl⟩)

/-- **The code of an operator does what its evaluation does.** -/
theorem leads_op {op : Op} {operand ty : Ty} {line : Nat} {a b : Value} {seg : List Instr}
    {c c' : Nat} (hcode : op.code operand line c = .ok (seg, c'))
    (hty : op.resultTy? operand = some ty)
    (ha : a.ty = operand) (hb : b.ty = operand) (hrun : Running image r R fs) (hhas : R.Has pc seg)
    (hroom : ¬o → st.size + op.need operand ≤ maxOperandStack) :
    Leads image o n ⟨(st.push a).push b, withPc fs pc, con⟩ (.ofExcept con (op.eval a b))
      (Pushed st fs (pc + seg.length) con ty) (Undisturbed st fs con) := by
  have hone (ho : ¬o) : st.size < maxOperandStack := by
    have := hroom ho
    have := op.two_le_need operand
    omega
  cases op with
  | arith op =>
    simp only [Op.code] at hcode
    cases hi : op.instr? operand with
    | none =>
      rw [hi] at hcode
      cases hcode
    | some i =>
      rw [hi] at hcode
      obtain ⟨rfl, rfl⟩ := Emit.of_pure hcode
      obtain rfl : operand = ty := by
        cases op <;> cases operand <;> first | exact Option.some.inj hty | cases hty
      exact leads_arith hi ha hb hrun (LoadedRoutine.has_cons.mp hhas).1 hone
  | compare cond =>
    obtain rfl : Ty.boolean = ty := by
      cases operand <;> first | exact Option.some.inj hty | cases hty
    cases operand with
    | number =>
      obtain ⟨x, rfl⟩ := Value.exists_int ha
      obtain ⟨y, rfl⟩ := Value.exists_int hb
      exact leads_ifCmp hcode rfl hrun hhas hone
    | boolean =>
      obtain ⟨x, rfl⟩ := Value.exists_bool ha
      obtain ⟨y, rfl⟩ := Value.exists_bool hb
      exact leads_ifCmp hcode rfl hrun hhas hone
    | string =>
      obtain ⟨x, rfl⟩ := Value.exists_str ha
      obtain ⟨y, rfl⟩ := Value.exists_str hb
      exact leads_stringCode hcode hrun hhas hroom
    | procedure => cases hcode

end Machine

end PLZero
