import PLZero.Proofs.Simulation.Names
import PLZero.Proofs.Simulation.Operators

/-!
# The code of expressions

* `Expr.need` — the most values that an expression has on the operand stack at one time.
* `Machine.leads_expr` — the code of an expression leaves its value on the stack, or fails as its
  evaluation does; in both cases all else is as it was.
-/

namespace PLZero

/-- The operand stack cells that an expression needs. -/
def Expr.need : Expr → Nat
  | .binary _ _ op lhs rhs =>
    max lhs.need (max (rhs.need + 1) (match lhs.ty with
      | some operand => op.need operand
      | none => 2))
  | _ => 1

theorem Outcome.ofExcept_bind {α β : Type} (con : Console) (x : Except Halt α)
    (f : α → Except Halt β) :
    Outcome.ofExcept con (x >>= f) = (Outcome.ofExcept con x).bind fun a =>
      .ofExcept con (f a) := by
  cases x with
  | ok a => rfl
  | error h => cases h <;> rfl

namespace Machine

variable {p : Program} {l : Layout} {image : Image} {bs : List (List Decl)} {is : List Nat}
  {r : Nat} {R : LoadedRoutine} {fs : Array Activation} {env : Env} {con : Console} {o : Prop}
  {n : Nat}

theorem leads_use {ident : Ident} {slotTy : Option Ty} {ty : Ty} {i : Instr} {st : Array Value}
    {pc : Nat} (hp : p.Annotated) (hnested : Nested p l bs)
    (hty : (Expr.use ident slotTy).HasTy Op.resultTy? p.signature ty)
    (hbound : ident.Bound (bs.map Decl.ids)) (hload : l.loadInstr ident = .ok i)
    (hi : R.code[pc]? = some i) (hroom : ¬o → st.size < maxOperandStack)
    (hlive : Live image bs is r R fs env) :
    Leads image o n ⟨st, withPc fs pc, con⟩ (.ofExcept con ((Expr.use ident slotTy).eval env))
      (Pushed st fs (pc + 1) con ty) (Undisturbed st fs con) := by
  obtain rfl := hlive.blocks
  cases hty with
  | @use _ id kind _ hdecl hsig hkind hvalue =>
    cases kind with
    | const =>
      obtain ⟨inner, layer, outer, head, value, hmeans, hvalueTy, hplace⟩ :=
        hp.exists_constant hnested hbound hdecl hsig
      have heval : (Expr.use ident (some ty)).eval env = .ok value := by
        rw [Expr.eval, hmeans.lookup]
      rw [heval]
      rcases Layout.loadInstr_cases hload with ⟨value', nest, hfinds, rfl⟩ |
        ⟨_, _, _, nest, hfinds, -⟩
      · cases hplace _ _ hfinds
        exact .advance hlive.running hi (advances_push value hroom) (.done ⟨hvalueTy, rfl⟩)
      · cases hplace _ _ hfinds
    | var =>
      obtain ⟨inner, layer, outer, head, k, declNest, hmeans, hheadTy, -, hk, -, hplace⟩ :=
        hp.exists_variable hnested hbound hdecl hsig
      have heval : (Expr.use ident (some ty)).eval env = .ok (layer.vars head.id) := by
        rw [Expr.eval, hmeans.lookup]
      rw [heval]
      rcases Layout.loadInstr_cases hload with
        ⟨value, nest, hfinds, rfl⟩ | ⟨slot, declNest', ty', nest, hfinds, rfl⟩
      · cases (hplace _ _ hfinds).1
      · obtain ⟨heq, hdistance⟩ := hplace _ _ hfinds
        cases heq
        obtain rfl := hmeans.eq
        rw [hdistance] at hi
        refine (Leads.gives hlive.running hi (hlive.exec_load hk hroom) (.done ⟨?_, rfl⟩)).of_le
          (Nat.le_succ n)
        exact Option.some.inj ((hlive.ty_vars (List.mem_of_getElem? hk)).symm.trans hheadTy)
    | procedure => exact absurd rfl hkind

/-- **The code of an expression does what its evaluation does.** -/
theorem leads_expr (hp : p.Annotated) (hnested : Nested p l bs)
    (hlive : Live image bs is r R fs env) : (e : Expr) → ∀ {ty : Ty} {c c' : Nat} {seg : List Instr}
    {st : Array Value} {pc : Nat}, e.HasTy Op.resultTy? p.signature ty → e.Bound (bs.map Decl.ids) →
    e.code l c = .ok (seg, c') → R.Has pc seg → (¬o → st.size + e.need ≤ maxOperandStack) →
    Leads image o n ⟨st, withPc fs pc, con⟩ (.ofExcept con (e.eval env))
      (Pushed st fs (pc + seg.length) con ty) (Undisturbed st fs con)
  | .literal token slotTy value, ty, c, c', seg, st, pc, hty, _, hcode, hhas, hroom => by
    obtain ⟨rfl, rfl⟩ := Expr.code_literal hcode
    refine .advance hlive.running (LoadedRoutine.has_cons.mp hhas).1 (advances_push value hroom) ?_
    cases hty with
    | literal => exact .done ⟨rfl, rfl⟩
  | .use ident slotTy, ty, c, c', seg, st, pc, hty, hbound, hcode, hhas, hroom => by
    obtain ⟨i, hi, rfl, rfl⟩ := Expr.code_use hcode
    exact leads_use hp hnested hty hbound hi (LoadedRoutine.has_cons.mp hhas).1 hroom hlive
  | .binary token slotTy op lhs rhs, ty, c, c', seg, st, pc, hty, hbound, hcode, hhas, hroom => by
    obtain ⟨left, right, operation, operand, c₁, c₂, hl, hr, hlhs, hop, rfl⟩ :=
      Expr.code_binary hcode
    rw [LoadedRoutine.has_append, LoadedRoutine.has_append] at hhas
    cases hty with
    | @binary _ _ _ _ operand' _ htyl htyr hresult =>
      obtain rfl : operand' = operand := Option.some.inj (htyl.ty_eq.symm.trans hlhs)
      simp only [Expr.need, hlhs] at hroom
      rw [Expr.eval, Outcome.ofExcept_bind]
      -- The left value waits on the stack while the right one is computed.
      refine (leads_expr hp hnested hlive lhs htyl hbound.1 hl hhas.1 fun ho => ?_).bind ?_
      · have := hroom ho
        omega
      rintro a _ ⟨ha, rfl⟩
      rw [Outcome.ofExcept_bind]
      refine ((leads_expr hp hnested hlive rhs htyr hbound.2 hr hhas.2.1 fun ho => ?_).imp_broken
        fun u hu => hu.of_push).bind ?_
      · have := hroom ho
        rw [Array.size_push]
        omega
      rintro b _ ⟨hb, rfl⟩
      rw [List.length_append, List.length_append, ← Nat.add_assoc, ← Nat.add_assoc]
      refine leads_op hop hresult ha hb hlive.running hhas.2.2 fun ho => ?_
      have := hroom ho
      omega

end Machine

end PLZero
