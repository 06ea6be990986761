import PLZero.Proofs.Machine.Effects
import PLZero.Proofs.Simulation.Expressions

/-!
# How high the operand stack is at each place of the code

* `Expr.heights`, `Stmt.heights` — the height of the operand stack before each instruction of the
  code of a tree, read off the tree alone.
* `Levelled` — heights that fit a piece of code: each instruction leads from the height before it to
  the height at every place where it may go on.
* `Stmt.levelled_code` — the heights of a statement fit its code.
* `Stmt.Spans` — where the code of the parts of a statement stands; `Stmt.Spans.heights` says that
  the stack is empty at both ends of it.
* `Stmt.heights_le` — no height is more than what the expressions need.
-/

namespace PLZero

/-! ## Heights -/

/-- The heights in the code of an operator, if the stack is `h` high below its operands. -/
def Op.heights (op : Op) (operand : Ty) (h : Nat) : List Nat :=
  match op, operand with
  | .arith _, _ => [h + 2]
  | .compare .lt, .string => [h + 2, h + 2, h + 4, h + 3, h + 3, h + 4, h + 3, h + 2]
  | .compare .gt, .string => [h + 2, h + 2, h + 4, h + 3, h + 3, h + 4, h + 3, h + 2]
  | .compare .le, .string => [h + 2, h + 2]
  | .compare .ge, .string => [h + 2, h + 2]
  | .compare _, _ => [h + 2, h, h + 1, h, h, h + 1]

/-- The heights in the code of an expression, if the stack is `h` high before it. -/
def Expr.heights (h : Nat) : Expr → List Nat
  | .literal .. => [h]
  | .use .. => [h]
  | .binary _ _ op lhs rhs =>
    lhs.heights h ++ (rhs.heights (h + 1) ++ match lhs.ty with
      | some operand => op.heights operand h
      | none => [])

mutual

/-- The heights in the code of a statement. -/
def Stmt.heights : Stmt → List Nat
  | .assign _ expr => expr.heights 0 ++ [1]
  | .call .. => [0]
  | .input .. => [0, 1]
  | .output _ expr => expr.heights 0 ++ [1]
  | .begin _ stmts => Stmt.heightsList stmts
  | .if _ guard body => guard.heights 0 ++ [1] ++ body.heights ++ [0]
  | .while _ guard body => [0, 0] ++ body.heights ++ [0] ++ guard.heights 0 ++ [1]
  | .empty _ => []

def Stmt.heightsList : List Stmt → List Nat
  | [] => []
  | s :: ss => s.heights ++ Stmt.heightsList ss

end

/-- The most values that the code of a program may have on the stack. -/
def Program.need (p : Program) : Nat := (p.expressions.map Expr.need).foldr max 1

/-! ## Heights that stand at a place -/

/-- The heights `part` stand in `hs` from position `pc` on. -/
def Stands (hs : List Nat) (pc : Nat) (part : List Nat) : Prop :=
  ∀ k h, part[k]? = some h → hs[pc + k]? = some h

variable {hs part part' : List Nat} {pc h h' : Nat}

theorem stands_cons : Stands hs pc (h :: part) ↔ hs[pc]? = some h ∧ Stands hs (pc + 1) part := by
  constructor
  · intro hstands
    refine ⟨hstands 0 h rfl, fun k x hx => ?_⟩
    rw [show pc + 1 + k = pc + (k + 1) from by omega]
    exact hstands (k + 1) x hx
  · rintro ⟨hfirst, hrest⟩ k x hx
    cases k with
    | zero =>
      cases hx
      exact hfirst
    | succ k =>
      rw [show pc + (k + 1) = pc + 1 + k from by omega]
      exact hrest k x hx

theorem stands_append :
    Stands hs pc (part ++ part') ↔ Stands hs pc part ∧ Stands hs (pc + part.length) part' := by
  induction part generalizing pc with
  | nil =>
    refine ⟨fun hstands => ⟨?_, by simpa using hstands⟩, fun hstands => by simpa using hstands.2⟩
    intro k x hx
    cases hx
  | cons x part ih =>
    rw [List.cons_append, stands_cons, stands_cons, ih, and_assoc, List.length_cons,
      show pc + (part.length + 1) = pc + 1 + part.length from by omega]

/-! ## Heights that fit code -/

variable {R : LoadedRoutine} {i : Instr} {seg seg' : List Instr}

/-- The instruction at `pc`, with the stack `h` high before it, leads to the heights in `hs`.  Calls
and returns need an empty stack. -/
structure Instr.Level (R : LoadedRoutine) (hs : List Nat) (pc : Nat) (i : Instr) (h : Nat) :
    Prop where
  next : (∀ l, i ≠ .goto l) → i ≠ .ret → ∃ h', hs[pc + 1]? = some h' ∧ h' + i.pops = h + i.pushes
  jump : ∀ l, i.target? = some l →
    ∃ q h' : Nat, R.code[q]? = some (.label l) ∧ hs[q]? = some h' ∧ h' + i.pops = h + i.pushes
  empty : (i = .ret ∨ ∃ callee up, i = .call callee up) → h = 0

/-- The heights fit the code that stands at `pc`. -/
inductive Levelled (R : LoadedRoutine) (hs : List Nat) : Nat → List Instr → List Nat → Prop where
  | nil (pc : Nat) : Levelled R hs pc [] []
  | cons {pc h : Nat} {i : Instr} {seg : List Instr} {part : List Nat} : i.Level R hs pc h →
      Levelled R hs (pc + 1) seg part → Levelled R hs pc (i :: seg) (h :: part)

/-- An instruction that only works on the stack. -/
theorem Instr.Level.plain (htarget : i.target? = none) (hcall : ∀ callee up, i ≠ .call callee up)
    (hret : i ≠ .ret) (hnext : hs[pc + 1]? = some h') (heq : h' + i.pops = h + i.pushes) :
    i.Level R hs pc h := by
  refine ⟨fun _ _ => ⟨h', hnext, heq⟩, ?_, ?_⟩
  · intro l hl
    rw [htarget] at hl
    cases hl
  · rintro (rfl | ⟨callee, up, rfl⟩)
    · exact absurd rfl hret
    · exact absurd rfl (hcall callee up)

/-- A branch, which goes on with the same height whether it is taken or not. -/
theorem Instr.Level.branch {l : Label} {q : Nat} (htarget : i.target? = some l)
    (hlabel : R.code[q]? = some (.label l)) (hthere : hs[q]? = some h')
    (hnext : (∀ l, i ≠ .goto l) → hs[pc + 1]? = some h') (heq : h' + i.pops = h + i.pushes) :
    i.Level R hs pc h := by
  refine ⟨fun hgoto _ => ⟨h', hnext hgoto, heq⟩, ?_, ?_⟩
  · intro l' hl'
    obtain rfl : l = l' := Option.some.inj (htarget.symm.trans hl')
    exact ⟨q, h', hlabel, hthere, heq⟩
  · rintro (rfl | ⟨callee, up, rfl⟩) <;> cases htarget

namespace Levelled

theorem append (hl : Levelled R hs pc seg part) (hl' : Levelled R hs (pc + seg.length) seg' part') :
    Levelled R hs pc (seg ++ seg') (part ++ part') := by
  induction hl with
  | nil => simpa using hl'
  | @cons pc h i seg part hi _ ih =>
    refine .cons hi (ih ?_)
    rwa [List.length_cons, Nat.add_comm seg.length 1, ← Nat.add_assoc] at hl'

theorem one (hi : i.Level R hs pc h) : Levelled R hs pc [i] [h] := .cons hi (.nil _)

/-- Every instruction of the piece fits. -/
theorem level (hl : Levelled R hs pc seg part) :
    ∀ (k : Nat) (i : Instr) (h : Nat), seg[k]? = some i → part[k]? = some h →
      i.Level R hs (pc + k) h := by
  induction hl with
  | nil =>
    intro k i h hi
    cases hi
  | @cons pc h i seg part hlevel _ ih =>
    intro k i' h' hi hh
    cases k with
    | zero =>
      cases hi
      cases hh
      exact hlevel
    | succ k =>
      rw [show pc + (k + 1) = pc + 1 + k from by omega]
      exact ih k i' h' hi hh

end Levelled

/-! ## Operators -/

section Code

variable {l : Layout} {c c' : Nat}

theorem levelled_branchCode {branch : Label → Instr} (htarget : ∀ l, (branch l).target? = some l)
    (hpops : ∀ l, (branch l).pops = 2) (hpushes : ∀ l, (branch l).pushes = 0)
    (hcode : branchCode branch c = .ok (seg, c'))
    (hhas : R.Has pc seg) (hstands : Stands hs pc [h + 2, h, h + 1, h, h, h + 1])
    (hend : hs[pc + seg.length]? = some (h + 1)) :
    Levelled R hs pc seg [h + 2, h, h + 1, h, h, h + 1] := by
  obtain ⟨rfl, rfl⟩ := code_branch hcode
  simp only [LoadedRoutine.has_cons] at hhas
  obtain ⟨-, -, -, hfalsy, -, hjoin, -⟩ := hhas
  simp only [stands_cons] at hstands
  obtain ⟨-, h₁, h₂, h₃, h₄, h₅, -⟩ := hstands
  refine .cons (.branch (htarget _) hfalsy h₃ (fun _ => h₁) ?_) ?_
  · rw [hpops, hpushes]
  refine .cons (.plain rfl nofun nofun h₂ rfl) ?_
  refine .cons (.branch rfl hjoin h₅ (fun hne => absurd rfl (hne _)) rfl) ?_
  refine .cons (.plain rfl nofun nofun h₄ rfl) ?_
  refine .cons (.plain rfl nofun nofun h₅ rfl) ?_
  exact .one (.plain rfl nofun nofun hend rfl)

/-- The code of a strict comparison of strings goes up to four values. -/
theorem levelled_strictCode {test : Instr} (htest : test = .startsWith ∨ test = .endsWith)
    (hstands : Stands hs pc [h + 2, h + 2, h + 4, h + 3, h + 3, h + 4, h + 3, h + 2])
    (hend : hs[pc + 8]? = some (h + 1)) :
    Levelled R hs pc (strictCode test)
      [h + 2, h + 2, h + 4, h + 3, h + 3, h + 4, h + 3, h + 2] := by
  simp only [stands_cons] at hstands
  obtain ⟨-, h₁, h₂, h₃, h₄, h₅, h₆, h₇, -⟩ := hstands
  refine .cons (.plain rfl nofun nofun h₁ rfl) ?_
  refine .cons (.plain rfl nofun nofun h₂ rfl) ?_
  refine .cons (.plain rfl nofun nofun h₃ rfl) ?_
  refine .cons (.plain rfl nofun nofun h₄ rfl) ?_
  refine .cons (.plain rfl nofun nofun h₅ rfl) ?_
  refine .cons (.plain rfl nofun nofun h₆ rfl) ?_
  refine .cons ?_ (.one (.plain rfl nofun nofun hend rfl))
  rcases htest with rfl | rfl <;> exact .plain rfl nofun nofun h₇ rfl

theorem levelled_swapped {test : Instr} (htest : test = .startsWith ∨ test = .endsWith)
    (hstands : Stands hs pc [h + 2, h + 2]) (hend : hs[pc + 2]? = some (h + 1)) :
    Levelled R hs pc [.swap, test] [h + 2, h + 2] := by
  simp only [stands_cons] at hstands
  refine .cons (.plain rfl nofun nofun hstands.2.1 rfl) (.one ?_)
  rcases htest with rfl | rfl <;> exact .plain rfl nofun nofun hend rfl

theorem Op.length_heights {op : Op} {operand : Ty} {line : Nat}
    (hcode : op.code operand line c = .ok (seg, c')) (h : Nat) :
    (op.heights operand h).length = seg.length := by
  cases op with
  | arith a =>
    simp only [Op.code] at hcode
    cases hi : a.instr? operand with
    | none =>
      rw [hi] at hcode
      cases hcode
    | some i =>
      rw [hi] at hcode
      obtain ⟨rfl, rfl⟩ := Emit.of_pure hcode
      rfl
  | compare cond =>
    cases operand with
    | procedure => cases hcode
    | number | boolean =>
      obtain ⟨rfl, rfl⟩ := code_branch hcode
      cases cond <;> rfl
    | string =>
      cases cond with
      | eq | ne =>
        obtain ⟨rfl, rfl⟩ := code_branch hcode
        rfl
      | lt | le | gt | ge =>
        obtain ⟨rfl, rfl⟩ := Emit.of_pure hcode
        rfl

theorem Op.levelled_code {op : Op} {operand : Ty} {line : Nat}
    (hcode : op.code operand line c = .ok (seg, c')) (hhas : R.Has pc seg)
    (hstands : Stands hs pc (op.heights operand h)) (hend : hs[pc + seg.length]? = some (h + 1)) :
    Levelled R hs pc seg (op.heights operand h) := by
  cases op with
  | arith a =>
    simp only [Op.code] at hcode
    cases hi : a.instr? operand with
    | none =>
      rw [hi] at hcode
      cases hcode
    | some i =>
      rw [hi] at hcode
      obtain ⟨rfl, rfl⟩ := Emit.of_pure hcode
      refine .one ?_
      cases a <;> cases operand <;> cases hi <;> exact .plain rfl (by simp) (by simp) hend rfl
  | compare cond =>
    cases operand with
    | procedure => cases hcode
    | number | boolean =>
      have hheights (ty : Ty) (hty : ty ≠ .string) :
          (Op.compare cond).heights ty h = [h + 2, h, h + 1, h, h, h + 1] := by
        cases ty <;> cases cond <;> first | rfl | exact absurd rfl hty
      rw [hheights _ (by simp)] at hstands ⊢
      exact levelled_branchCode (fun _ => rfl) (fun _ => rfl) (fun _ => rfl) hcode hhas hstands hend
    | string =>
      cases cond with
      | eq | ne =>
        exact levelled_branchCode (fun _ => rfl) (fun _ => rfl) (fun _ => rfl) hcode hhas hstands
          hend
      | lt | gt =>
        obtain ⟨rfl, rfl⟩ := Emit.of_pure hcode
        exact levelled_strictCode (by simp) hstands hend
      | le | ge =>
        obtain ⟨rfl, rfl⟩ := Emit.of_pure hcode
        exact levelled_swapped (by simp) hstands hend

/-- Where the code of an operator starts, both operands are on the stack. -/
theorem Op.head_heights (op : Op) (operand : Ty) (h : Nat) :
    ∃ part, op.heights operand h = (h + 2) :: part := by
  unfold Op.heights
  split <;> exact ⟨_, rfl⟩

/-! ## Expressions -/

theorem Expr.length_heights (e : Expr) : ∀ {c c' : Nat} {seg : List Instr} (h : Nat),
    e.code l c = .ok (seg, c') → (e.heights h).length = seg.length := by
  induction e with
  | literal token ty value =>
    intro c c' seg h hcode
    obtain ⟨rfl, rfl⟩ := Expr.code_literal hcode
    rfl
  | use ident ty =>
    intro c c' seg h hcode
    obtain ⟨i, -, rfl, rfl⟩ := Expr.code_use hcode
    rfl
  | binary token ty op lhs rhs ihl ihr =>
    intro c c' seg h hcode
    obtain ⟨left, right, operation, operand, c₁, c₂, hl, hr, hty, hop, rfl⟩ :=
      Expr.code_binary hcode
    simp only [Expr.heights, hty, List.length_append, ihl h hl, ihr (h + 1) hr,
      Op.length_heights hop]

/-- The code of an expression starts at the height that was given. -/
theorem Expr.head_heights (e : Expr) (h : Nat) : ∃ part, e.heights h = h :: part := by
  induction e with
  | literal => exact ⟨[], rfl⟩
  | use => exact ⟨[], rfl⟩
  | binary token ty op lhs rhs ihl _ =>
    obtain ⟨part, hpart⟩ := ihl
    rw [Expr.heights, hpart]
    exact ⟨_, rfl⟩

theorem Layout.level_loadInstr {ident : Ident} (hi : l.loadInstr ident = .ok i)
    (hnext : hs[pc + 1]? = some (h + 1)) : i.Level R hs pc h := by
  rcases Layout.loadInstr_cases hi with ⟨value, nest, -, rfl⟩ | ⟨slot, declNest, ty, nest, -, rfl⟩
  · exact .plain rfl nofun nofun hnext rfl
  · exact .plain rfl nofun nofun hnext rfl

theorem Layout.level_storeInstr {ident : Ident} (hi : l.storeInstr ident = .ok i)
    (hnext : hs[pc + 1]? = some h) : i.Level R hs pc (h + 1) := by
  obtain ⟨slot, declNest, ty, nest, -, rfl⟩ := Layout.storeInstr_cases hi
  exact .plain rfl nofun nofun hnext rfl

/-- The code of an expression leaves one value more than it found. -/
theorem Expr.levelled_code (e : Expr) : ∀ {c c' : Nat} {seg : List Instr} {pc h : Nat},
    e.code l c = .ok (seg, c') → R.Has pc seg → Stands hs pc (e.heights h) →
    hs[pc + seg.length]? = some (h + 1) → Levelled R hs pc seg (e.heights h) := by
  induction e with
  | literal token ty value =>
    intro c c' seg pc h hcode _ _ hend
    obtain ⟨rfl, rfl⟩ := Expr.code_literal hcode
    exact .one (.plain rfl nofun nofun hend rfl)
  | use ident ty =>
    intro c c' seg pc h hcode _ _ hend
    obtain ⟨i, hi, rfl, rfl⟩ := Expr.code_use hcode
    exact .one (Layout.level_loadInstr hi hend)
  | binary token ty op lhs rhs ihl ihr =>
    intro c c' seg pc h hcode hhas hstands hend
    obtain ⟨left, right, operation, operand, c₁, c₂, hl, hr, hty, hop, rfl⟩ :=
      Expr.code_binary hcode
    rw [LoadedRoutine.has_append, LoadedRoutine.has_append] at hhas
    simp only [Expr.heights, hty] at hstands ⊢
    rw [stands_append, stands_append, lhs.length_heights h hl, rhs.length_heights (h + 1) hr]
      at hstands
    rw [List.length_append, List.length_append, ← Nat.add_assoc, ← Nat.add_assoc] at hend
    obtain ⟨hleft, hright, hoperation⟩ := hstands
    -- Where the right operand starts, the left one is on the stack; where the operator does, both.
    have hmiddle : hs[pc + left.length]? = some (h + 1) := by
      obtain ⟨part, hpart⟩ := rhs.head_heights (h + 1)
      rw [hpart, stands_cons] at hright
      exact hright.1
    have hboth : hs[pc + left.length + right.length]? = some (h + 1 + 1) := by
      obtain ⟨part, hpart⟩ := op.head_heights operand h
      rw [hpart, stands_cons] at hoperation
      exact hoperation.1
    refine (ihl hl hhas.1 hleft hmiddle).append ?_
    refine (ihr hr hhas.2.1 hright hboth).append ?_
    exact Op.levelled_code hop hhas.2.2 hoperation hend

/-! ## Statements -/

mutual

theorem Stmt.length_heights : (s : Stmt) → ∀ {c c' : Nat} {seg : List Instr},
    s.code l c = .ok (seg, c') → s.heights.length = seg.length
  | .assign target expr, c, c', seg, hcode => by
    obtain ⟨value, i, he, -, rfl⟩ := Stmt.code_assign hcode
    simp [Stmt.heights, expr.length_heights 0 he]
  | .call token target, c, c', seg, hcode => by
    obtain ⟨i, -, rfl, rfl⟩ := Stmt.code_call hcode
    rfl
  | .input token target, c, c', seg, hcode => by
    obtain ⟨ty, i, -, -, rfl, rfl⟩ := Stmt.code_input hcode
    rfl
  | .output token expr, c, c', seg, hcode => by
    obtain ⟨value, ty, he, -, rfl⟩ := Stmt.code_output hcode
    simp [Stmt.heights, expr.length_heights 0 he]
  | .begin token stmts, c, c', seg, hcode => Stmt.length_heightsList stmts hcode
  | .if token guard body, c, c', seg, hcode => by
    obtain ⟨test, run, c₁, htest, hrun, rfl⟩ := Stmt.code_if hcode
    simp [Stmt.heights, guard.length_heights 0 htest, body.length_heights hrun]
  | .while token guard body, c, c', seg, hcode => by
    obtain ⟨run, test, c₁, hrun, htest, rfl⟩ := Stmt.code_while hcode
    simp [Stmt.heights, guard.length_heights 0 htest, body.length_heights hrun]
  | .empty token, c, c', seg, hcode => by
    obtain ⟨rfl, rfl⟩ := Emit.of_pure hcode
    rfl

theorem Stmt.length_heightsList : (ss : List Stmt) → ∀ {c c' : Nat} {seg : List Instr},
    Stmt.codeList l ss c = .ok (seg, c') → (Stmt.heightsList ss).length = seg.length
  | [], c, c', seg, hcode => by
    obtain ⟨rfl, rfl⟩ := Emit.of_pure hcode
    rfl
  | s :: ss, c, c', seg, hcode => by
    obtain ⟨first, rest, c₁, hfirst, hrest, rfl⟩ := Stmt.codeList_cons hcode
    simp [Stmt.heightsList, s.length_heights hfirst, Stmt.length_heightsList ss hrest]

end

end Code

mutual

/-- A statement starts with an empty stack, if it has code at all. -/
theorem Stmt.head_heights : (s : Stmt) → s.heights = [] ∨ ∃ part, s.heights = 0 :: part
  | .assign _ expr | .output _ expr => by
    obtain ⟨part, hpart⟩ := expr.head_heights 0
    exact .inr ⟨part ++ [1], by rw [Stmt.heights, hpart, List.cons_append]⟩
  | .call .. | .input .. => .inr ⟨_, rfl⟩
  | .begin _ stmts => Stmt.head_heightsList stmts
  | .if _ guard body => by
    obtain ⟨part, hpart⟩ := guard.head_heights 0
    exact .inr ⟨part ++ [1] ++ body.heights ++ [0], by simp [Stmt.heights, hpart]⟩
  | .while _ guard body => .inr ⟨[0] ++ body.heights ++ [0] ++ guard.heights 0 ++ [1], rfl⟩
  | .empty _ => .inl rfl

theorem Stmt.head_heightsList : (ss : List Stmt) →
    Stmt.heightsList ss = [] ∨ ∃ part, Stmt.heightsList ss = 0 :: part
  | [] => .inl rfl
  | s :: ss => by
    rw [Stmt.heightsList]
    rcases s.head_heights with hnil | ⟨part, hpart⟩
    · rw [hnil, List.nil_append]
      exact Stmt.head_heightsList ss
    · rw [hpart, List.cons_append]
      exact .inr ⟨_, rfl⟩

end

/-- Heights that are `0` at the start, or none, come to `0` at the start if they do so at the end.
-/
theorem start_of_stands (hhead : part = [] ∨ ∃ rest, part = 0 :: rest) (hstands : Stands hs pc part)
    (hend : hs[pc + part.length]? = some 0) : hs[pc]? = some 0 := by
  rcases hhead with rfl | ⟨rest, rfl⟩
  · exact hend
  · exact (stands_cons.mp hstands).1

section Code

variable {l : Layout}

mutual

/-- **The heights of a statement fit its code**: it leaves the stack as empty as it found it. -/
theorem Stmt.levelled_code : (s : Stmt) → ∀ {c c' : Nat} {seg : List Instr} {pc : Nat},
    s.code l c = .ok (seg, c') → R.Has pc seg → Stands hs pc s.heights →
    hs[pc + seg.length]? = some 0 → Levelled R hs pc seg s.heights
  | .assign target expr, c, c', seg, pc, hcode, hhas, hstands, hend => by
    obtain ⟨value, i, he, hi, rfl⟩ := Stmt.code_assign hcode
    rw [LoadedRoutine.has_append] at hhas
    rw [Stmt.heights] at hstands ⊢
    rw [stands_append, expr.length_heights 0 he, stands_cons] at hstands
    rw [List.length_append, ← Nat.add_assoc] at hend
    refine (expr.levelled_code he hhas.1 hstands.1 hstands.2.1).append ?_
    exact .one (Layout.level_storeInstr hi hend)
  | .call token target, c, c', seg, pc, hcode, _, _, hend => by
    obtain ⟨i, hi, rfl, rfl⟩ := Stmt.code_call hcode
    obtain ⟨index, declNest, nest, -, rfl⟩ := Layout.callInstr_cases hi
    exact .one ⟨fun _ _ => ⟨0, hend, rfl⟩, nofun, fun _ => rfl⟩
  | .input token target, c, c', seg, pc, hcode, hhas, hstands, hend => by
    obtain ⟨ty, i, -, hi, rfl, rfl⟩ := Stmt.code_input hcode
    simp only [Stmt.heights, stands_cons] at hstands
    refine .cons (.plain rfl nofun nofun hstands.2.1 rfl) ?_
    exact .one (Layout.level_storeInstr hi hend)
  | .output token expr, c, c', seg, pc, hcode, hhas, hstands, hend => by
    obtain ⟨value, ty, he, -, rfl⟩ := Stmt.code_output hcode
    rw [LoadedRoutine.has_append] at hhas
    rw [Stmt.heights] at hstands ⊢
    rw [stands_append, expr.length_heights 0 he, stands_cons] at hstands
    rw [List.length_append, ← Nat.add_assoc] at hend
    refine (expr.levelled_code he hhas.1 hstands.1 hstands.2.1).append ?_
    exact .one (.plain rfl nofun nofun hend rfl)
  | .begin token stmts, c, c', seg, pc, hcode, hhas, hstands, hend =>
    Stmt.levelled_codeList stmts hcode hhas hstands hend
  | .if token guard body, c, c', seg, pc, hcode, hhas, hstands, hend => by
    obtain ⟨test, run, c₁, htest, hrun, rfl⟩ := Stmt.code_if hcode
    simp only [List.append_assoc, List.cons_append, List.nil_append, LoadedRoutine.has_append,
      LoadedRoutine.has_cons] at hhas
    simp only [Stmt.heights, List.append_assoc, List.cons_append, List.nil_append, stands_append,
      stands_cons, guard.length_heights 0 htest, body.length_heights hrun] at hstands ⊢
    obtain ⟨hguard, hbranch, hbody, hjoin, -⟩ := hstands
    -- A body without code starts where the join is.
    have hstart : hs[pc + test.length + 1]? = some 0 :=
      start_of_stands body.head_heights hbody (by rwa [body.length_heights hrun])
    have hafter : hs[pc + test.length + 1 + run.length + 1]? = some 0 := by
      simpa [Nat.add_assoc, Nat.add_comm, Nat.add_left_comm] using hend
    refine (guard.levelled_code htest hhas.1 hguard hbranch).append ?_
    refine .cons (.branch rfl hhas.2.2.2.1 hjoin (fun _ => hstart) rfl) ?_
    refine (body.levelled_code hrun hhas.2.2.1 hbody hjoin).append ?_
    exact .one (.plain rfl nofun nofun hafter rfl)
  | .while token guard body, c, c', seg, pc, hcode, hhas, hstands, hend => by
    obtain ⟨run, test, c₁, hrun, htest, rfl⟩ := Stmt.code_while hcode
    simp only [List.append_assoc, List.cons_append, List.nil_append, LoadedRoutine.has_append,
      LoadedRoutine.has_cons] at hhas
    simp only [Stmt.heights, List.append_assoc, List.cons_append, List.nil_append, stands_append,
      stands_cons, guard.length_heights 0 htest, body.length_heights hrun] at hstands ⊢
    obtain ⟨-, hstart, hbody, hcheck, hguard, hbranch, -⟩ := hstands
    have hrunStart : hs[pc + 1 + 1]? = some 0 :=
      start_of_stands body.head_heights hbody (by rwa [body.length_heights hrun])
    have htestStart : hs[pc + 1 + 1 + run.length + 1]? = some 0 := by
      obtain ⟨part, hpart⟩ := guard.head_heights 0
      rw [hpart, stands_cons] at hguard
      exact hguard.1
    have hafter : hs[pc + 1 + 1 + run.length + 1 + test.length + 1]? = some 0 := by
      simpa [Nat.add_assoc, Nat.add_comm, Nat.add_left_comm] using hend
    refine .cons (.branch rfl hhas.2.2.2.1 hcheck (fun hne => absurd rfl (hne _)) rfl) ?_
    refine .cons (.plain rfl nofun nofun hrunStart rfl) ?_
    refine (body.levelled_code hrun hhas.2.2.1 hbody hcheck).append ?_
    refine .cons (.plain rfl nofun nofun htestStart rfl) ?_
    refine (guard.levelled_code htest hhas.2.2.2.2.1 hguard hbranch).append ?_
    exact .one (.branch rfl hhas.2.1 hstart (fun _ => hafter) rfl)
  | .empty token, c, c', seg, pc, hcode, _, _, _ => by
    obtain ⟨rfl, rfl⟩ := Emit.of_pure hcode
    exact .nil pc

theorem Stmt.levelled_codeList : (ss : List Stmt) → ∀ {c c' : Nat} {seg : List Instr} {pc : Nat},
    Stmt.codeList l ss c = .ok (seg, c') → R.Has pc seg → Stands hs pc (Stmt.heightsList ss) →
    hs[pc + seg.length]? = some 0 → Levelled R hs pc seg (Stmt.heightsList ss)
  | [], c, c', seg, pc, hcode, _, _, _ => by
    obtain ⟨rfl, rfl⟩ := Emit.of_pure hcode
    exact .nil pc
  | s :: ss, c, c', seg, pc, hcode, hhas, hstands, hend => by
    obtain ⟨first, rest, c₁, hfirst, hrest, rfl⟩ := Stmt.codeList_cons hcode
    rw [LoadedRoutine.has_append] at hhas
    rw [Stmt.heightsList, stands_append, s.length_heights hfirst] at hstands
    rw [List.length_append, ← Nat.add_assoc] at hend
    have hmiddle : hs[pc + first.length]? = some 0 := by
      refine start_of_stands (Stmt.head_heightsList ss) hstands.2 ?_
      rwa [Stmt.length_heightsList ss hrest]
    refine (s.levelled_code hfirst hhas.1 hstands.1 hmiddle).append ?_
    exact Stmt.levelled_codeList ss hrest hhas.2 hstands.2 hend

end

/-! ## Where the parts of a statement stand -/

mutual

/-- A statement and all statements inside it. -/
def Stmt.parts : Stmt → List Stmt
  | .begin token stmts => .begin token stmts :: Stmt.partsList stmts
  | .if token guard body => .if token guard body :: body.parts
  | .while token guard body => .while token guard body :: body.parts
  | s => [s]

def Stmt.partsList : List Stmt → List Stmt
  | [] => []
  | s :: ss => s.parts ++ Stmt.partsList ss

end

/-- The code of `sub`, a part of the statement `s` whose code stands at `pc`, goes from `start` to
`stop`.  The label numbers `c` are those with which the code is made. -/
inductive Stmt.Spans (l : Layout) : Stmt → Nat → Nat → Stmt → Nat → Nat → Prop where
  | self {s : Stmt} {c c' pc : Nat} {seg : List Instr} : s.code l c = .ok (seg, c') →
      Spans l s c pc s pc (pc + seg.length)
  | begin {token : Token} {before after : List Stmt} {s sub : Stmt} {c c₁ pc start stop : Nat}
      {seg : List Instr} : Stmt.codeList l before c = .ok (seg, c₁) →
      Spans l s c₁ (pc + seg.length) sub start stop →
      Spans l (.begin token (before ++ s :: after)) c pc sub start stop
  | if {token : Token} {guard : Expr} {body sub : Stmt} {c c₁ pc start stop : Nat}
      {test : List Instr} : guard.code l (c + 1) = .ok (test, c₁) →
      Spans l body c₁ (pc + test.length + 1) sub start stop →
      Spans l (.if token guard body) c pc sub start stop
  | while {token : Token} {guard : Expr} {body sub : Stmt} {c pc start stop : Nat} :
      Spans l body (c + 2) (pc + 2) sub start stop →
      Spans l (.while token guard body) c pc sub start stop

theorem Stmt.codeList_cons_ok {s : Stmt} {ss : List Stmt} {first rest : List Instr} {c c₁ c₂ : Nat}
    (hfirst : s.code l c = .ok (first, c₁)) (hrest : Stmt.codeList l ss c₁ = .ok (rest, c₂)) :
    Stmt.codeList l (s :: ss) c = .ok (first ++ rest, c₂) := by
  simp only [Stmt.codeList, bind, StateT.bind, hfirst, Except.bind, hrest]
  rfl

theorem Stmt.codeList_append {before after : List Stmt} : ∀ {c c' : Nat} {seg : List Instr},
    Stmt.codeList l (before ++ after) c = .ok (seg, c') →
    ∃ first rest c₁, Stmt.codeList l before c = .ok (first, c₁) ∧
      Stmt.codeList l after c₁ = .ok (rest, c') ∧ seg = first ++ rest := by
  induction before with
  | nil =>
    intro c c' seg hcode
    exact ⟨[], seg, c, rfl, hcode, rfl⟩
  | cons s before ih =>
    intro c c' seg hcode
    obtain ⟨first, rest, c₁, hfirst, hrest, rfl⟩ := Stmt.codeList_cons hcode
    obtain ⟨rest₁, rest₂, c₂, hrest₁, hrest₂, rfl⟩ := ih hrest
    exact ⟨first ++ rest₁, rest₂, c₂, codeList_cons_ok hfirst hrest₁, hrest₂,
      (List.append_assoc ..).symm⟩

theorem Stmt.heightsList_append (before after : List Stmt) :
    Stmt.heightsList (before ++ after) = Stmt.heightsList before ++ Stmt.heightsList after := by
  induction before with
  | nil => rfl
  | cons s before ih =>
    rw [List.cons_append, Stmt.heightsList, Stmt.heightsList, ih, List.append_assoc]

mutual

/-- Every part of a statement has its code somewhere. -/
theorem Stmt.exists_spans {sub : Stmt} : (s : Stmt) → ∀ {c c' : Nat} {seg : List Instr} (pc : Nat),
    s.code l c = .ok (seg, c') → sub ∈ s.parts → ∃ start stop, s.Spans l c pc sub start stop
  | .begin token stmts, c, c', seg, pc, hcode, hsub => by
    rcases List.mem_cons.mp hsub with rfl | hsub
    · exact ⟨_, _, .self hcode⟩
    · obtain ⟨before, s, after, first, c₁, start, stop, rfl, hbefore, hspans⟩ :=
        Stmt.exists_spansList stmts pc hcode hsub
      exact ⟨start, stop, .begin hbefore hspans⟩
  | .if token guard body, c, c', seg, pc, hcode, hsub => by
    rcases List.mem_cons.mp hsub with rfl | hsub
    · exact ⟨_, _, .self hcode⟩
    · obtain ⟨test, run, c₁, htest, hrun, -⟩ := Stmt.code_if hcode
      obtain ⟨start, stop, hspans⟩ := Stmt.exists_spans body (pc + test.length + 1) hrun hsub
      exact ⟨start, stop, .if htest hspans⟩
  | .while token guard body, c, c', seg, pc, hcode, hsub => by
    rcases List.mem_cons.mp hsub with rfl | hsub
    · exact ⟨_, _, .self hcode⟩
    · obtain ⟨run, test, c₁, hrun, -, -⟩ := Stmt.code_while hcode
      obtain ⟨start, stop, hspans⟩ := Stmt.exists_spans body (pc + 2) hrun hsub
      exact ⟨start, stop, .while hspans⟩
  | .assign .., c, c', seg, pc, hcode, hsub | .call .., c, c', seg, pc, hcode, hsub
  | .input .., c, c', seg, pc, hcode, hsub | .output .., c, c', seg, pc, hcode, hsub
  | .empty _, c, c', seg, pc, hcode, hsub => by
    cases List.mem_singleton.mp hsub
    exact ⟨_, _, .self hcode⟩

theorem Stmt.exists_spansList {sub : Stmt} : (ss : List Stmt) → ∀ {c c' : Nat} {seg : List Instr}
    (pc : Nat), Stmt.codeList l ss c = .ok (seg, c') → sub ∈ Stmt.partsList ss →
    ∃ before s after first c₁ start stop, ss = before ++ s :: after ∧
      Stmt.codeList l before c = .ok (first, c₁) ∧
      s.Spans l c₁ (pc + first.length) sub start stop
  | [], c, c', seg, pc, _, hsub => by cases hsub
  | s :: ss, c, c', seg, pc, hcode, hsub => by
    obtain ⟨first, rest, c₁, hfirst, hrest, rfl⟩ := Stmt.codeList_cons hcode
    rw [Stmt.partsList, List.mem_append] at hsub
    rcases hsub with hsub | hsub
    · obtain ⟨start, stop, hspans⟩ := Stmt.exists_spans s pc hfirst hsub
      exact ⟨[], s, ss, [], c, start, stop, rfl, rfl, hspans⟩
    · obtain ⟨before, s', after, first', c₂, start, stop, rfl, hbefore, hspans⟩ :=
        Stmt.exists_spansList ss (pc + first.length) hrest hsub
      refine ⟨s :: before, s', after, first ++ first', c₂, start, stop, rfl,
        codeList_cons_ok hfirst hbefore, ?_⟩
      rwa [List.length_append, ← Nat.add_assoc]

end

/-- **The stack is empty at both ends of every part of a statement.** -/
theorem Stmt.Spans.heights {s sub : Stmt} {c pc start stop : Nat}
    (hspans : s.Spans l c pc sub start stop) : ∀ {c' : Nat} {seg : List Instr},
    s.code l c = .ok (seg, c') → Stands hs pc s.heights → hs[pc + seg.length]? = some 0 →
    hs[start]? = some 0 ∧ hs[stop]? = some 0 := by
  induction hspans with
  | @self s c c' pc seg hself =>
    intro c'' seg' hcode hstands hend
    obtain ⟨rfl, -⟩ := Prod.mk.inj (Except.ok.inj (hself.symm.trans hcode))
    refine ⟨start_of_stands s.head_heights hstands ?_, hend⟩
    rwa [s.length_heights hself]
  | @begin token before after s sub c c₁ pc start stop seg hbefore _ ih =>
    intro c' whole hcode hstands hend
    obtain ⟨first, rest, c₂, hfirst, hrest, rfl⟩ := Stmt.codeList_append hcode
    obtain ⟨rfl, rfl⟩ := Prod.mk.inj (Except.ok.inj (hbefore.symm.trans hfirst))
    obtain ⟨run, tail, c₃, hrun, htail, rfl⟩ := Stmt.codeList_cons hrest
    rw [Stmt.heights, Stmt.heightsList_append, Stmt.heightsList, stands_append, stands_append,
      Stmt.length_heightsList before hbefore, s.length_heights hrun] at hstands
    rw [List.length_append, List.length_append, ← Nat.add_assoc, ← Nat.add_assoc] at hend
    refine ih hrun hstands.2.1 (start_of_stands (Stmt.head_heightsList after) hstands.2.2 ?_)
    rwa [Stmt.length_heightsList after htail]
  | @«if» token guard body sub c c₁ pc start stop test htest _ ih =>
    intro c' seg hcode hstands hend
    obtain ⟨test', run, c₂, htest', hrun, rfl⟩ := Stmt.code_if hcode
    obtain ⟨rfl, rfl⟩ := Prod.mk.inj (Except.ok.inj (htest.symm.trans htest'))
    simp only [Stmt.heights, List.append_assoc, List.cons_append, List.nil_append, stands_append,
      stands_cons, guard.length_heights 0 htest, body.length_heights hrun] at hstands
    exact ih hrun hstands.2.2.1 hstands.2.2.2.1
  | @«while» token guard body sub c pc start stop _ ih =>
    intro c' seg hcode hstands hend
    obtain ⟨run, test, c₂, hrun, htest, rfl⟩ := Stmt.code_while hcode
    simp only [Stmt.heights, List.append_assoc, List.cons_append, List.nil_append, stands_append,
      stands_cons, body.length_heights hrun] at hstands
    exact ih hrun hstands.2.2.1 hstands.2.2.2.1

end Code

/-! ## How high the stack gets -/

theorem Op.heights_le (op : Op) (operand : Ty) (h : Nat) :
    ∀ x ∈ op.heights operand h, x ≤ h + op.need operand := by
  intro x hx
  have htwo := op.two_le_need operand
  unfold Op.heights at hx
  split at hx <;> simp only [List.mem_cons, List.not_mem_nil, or_false] at hx
  · omega
  · simp only [Op.need] at htwo ⊢
    omega
  · simp only [Op.need] at htwo ⊢
    omega
  all_goals omega

theorem Expr.heights_le (e : Expr) : ∀ h, ∀ x ∈ e.heights h, x ≤ h + e.need := by
  induction e with
  | literal | use =>
    intro h x hx
    cases List.mem_singleton.mp hx
    exact Nat.le_add_right ..
  | binary token ty op lhs rhs ihl ihr =>
    intro h x hx
    rw [Expr.heights, List.mem_append, List.mem_append] at hx
    rw [Expr.need]
    rcases hx with hx | hx | hx
    · have := ihl h x hx
      omega
    · have := ihr (h + 1) x hx
      omega
    · cases hty : lhs.ty with
      | none =>
        rw [hty] at hx
        cases hx
      | some operand =>
        rw [hty] at hx
        have := op.heights_le operand h x hx
        simp only
        omega

mutual

/-- No height of a statement is more than what its expressions need. -/
theorem Stmt.heights_le {n : Nat} (hone : 1 ≤ n) : (s : Stmt) → (∀ e ∈ s.exprs, e.need ≤ n) →
    ∀ x ∈ s.heights, x ≤ n
  | .assign _ expr, hneed, x, hx | .output _ expr, hneed, x, hx => by
    rw [Stmt.heights, List.mem_append] at hx
    rcases hx with hx | hx
    · have := expr.heights_le 0 x hx
      have := hneed expr expr.mem_subexprs_self
      omega
    · cases List.mem_singleton.mp hx
      exact hone
  | .call .., _, x, hx => by
    cases List.mem_singleton.mp hx
    exact Nat.zero_le n
  | .input .., _, x, hx => by
    simp only [Stmt.heights, List.mem_cons, List.not_mem_nil, or_false] at hx
    omega
  | .begin _ stmts, hneed, x, hx => Stmt.heightsList_le hone stmts hneed x hx
  | .if _ guard body, hneed, x, hx => by
    rw [Stmt.exprs, List.forall_mem_append] at hneed
    have hguard := hneed.1 guard guard.mem_subexprs_self
    simp only [Stmt.heights, List.mem_append, List.mem_singleton] at hx
    rcases hx with ((hx | rfl) | hx) | rfl
    · have := guard.heights_le 0 x hx
      omega
    · exact hone
    · exact body.heights_le hone hneed.2 x hx
    · exact Nat.zero_le n
  | .while _ guard body, hneed, x, hx => by
    rw [Stmt.exprs, List.forall_mem_append] at hneed
    have hguard := hneed.1 guard guard.mem_subexprs_self
    simp only [Stmt.heights, List.mem_append, List.mem_cons, List.not_mem_nil, or_false,
      or_self] at hx
    rcases hx with (((rfl | hx) | rfl) | hx) | rfl
    · exact Nat.zero_le n
    · exact body.heights_le hone hneed.2 x hx
    · exact Nat.zero_le n
    · have := guard.heights_le 0 x hx
      omega
    · exact hone
  | .empty _, _, x, hx => by cases hx

theorem Stmt.heightsList_le {n : Nat} (hone : 1 ≤ n) : (ss : List Stmt) →
    (∀ e ∈ Stmt.exprsList ss, e.need ≤ n) → ∀ x ∈ Stmt.heightsList ss, x ≤ n
  | [], _, x, hx => by cases hx
  | s :: ss, hneed, x, hx => by
    rw [Stmt.exprsList, List.forall_mem_append] at hneed
    rw [Stmt.heightsList, List.mem_append] at hx
    rcases hx with hx | hx
    · exact s.heights_le hone hneed.1 x hx
    · exact Stmt.heightsList_le hone ss hneed.2 x hx

end

end PLZero
