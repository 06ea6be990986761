import PLZero.Machine.Run
import PLZero.Tree.Traverse

/-!
# What programs mean

A direct evaluation of resolved and typed trees, in which there is no code.

* An environment is a list of layers, the innermost first: one for each block around the statement
  that runs, with the declarations of the block and the values of its variables.  A name means its
  declaration in the innermost layer that has it.
* A call puts a fresh layer, with all variables at their defaults, on the layer that declares the
  procedure and those around it.  When it returns, the layers of the caller inside that one are as
  they were.
* An evaluation is `done`, has `failed` for one of the reasons for which a run may stop, or is
  `stuck` where the rules have nothing to say.  Loops and calls use up fuel, and without it the
  evaluation is `spent`.

* `Program.report?_eval_of_le` — more fuel does not change what an evaluation has come to.

Numbers are 32-bit and wrap around, quotients go toward zero, both operands are always evaluated,
and strings are ordered as starts (`<=`) and ends (`>=`) of one another.
-/

namespace PLZero

/-! ## Outcomes -/

inductive Outcome (α : Type) where
  | done (a : α)
  | failed (fault : MachineFault) (console : Console)
  | stuck
  | spent

namespace Outcome

variable {α β : Type}

def bind (r : Outcome α) (next : α → Outcome β) : Outcome β :=
  match r with
  | done a => next a
  | failed fault console => failed fault console
  | stuck => stuck
  | spent => spent

end Outcome

/-- Why an expression has no value. -/
inductive Halt where
  | fault (f : MachineFault)
  | stuck
  deriving DecidableEq, Repr

/-- The outcome of an expression, which leaves the console as it is. -/
def Outcome.ofExcept {α : Type} (console : Console) : Except Halt α → Outcome α
  | .ok a => .done a
  | .error (.fault f) => .failed f console
  | .error .stuck => .stuck

/-! ## Operations -/

/-- The 32-bit number that the integer wraps around to. -/
def wrap (n : Int) : Int32 := Int32.ofInt n

namespace Arith

/-- The operation on integers; `none` where it is not defined. -/
def onInt : Arith → Int → Int → Option Int
  | add, a, b => some (a + b)
  | sub, a, b => some (a - b)
  | mul, a, b => some (a * b)
  | div, a, b => if b = 0 then none else some (a.tdiv b)
  | rem, a, b => if b = 0 then none else some (a.tmod b)

def eval : Arith → Value → Value → Except Halt Value
  | op, .int a, .int b =>
    match op.onInt a.toInt b.toInt with
    | some n => .ok (.int (wrap n))
    | none => .error (.fault .divisionByZero)
  | add, .bool a, .bool b => .ok (.bool (a || b))
  | mul, .bool a, .bool b => .ok (.bool (a && b))
  | add, .str a, .str b => .ok (.str (a ++ b))
  | _, _, _ => .error .stuck

end Arith

namespace Cond

def onInt (c : Cond) (a b : Int) : Bool :=
  match c with
  | eq => a = b
  | ne => a ≠ b
  | lt => a < b
  | le => a ≤ b
  | gt => b < a
  | ge => b ≤ a

/-- `false` is less than `true`. -/
def onBool (c : Cond) (a b : Bool) : Bool := c.onInt a.toInt b.toInt

/-- A string is at most another if it is a start of it, and at least another if it is an end. -/
def onStr (c : Cond) (a b : String) : Bool :=
  match c with
  | eq => a = b
  | ne => a ≠ b
  | lt => a.toList <+: b.toList ∧ a ≠ b
  | le => a.toList <+: b.toList
  | gt => a.toList <:+ b.toList ∧ a ≠ b
  | ge => a.toList <:+ b.toList

def eval : Cond → Value → Value → Except Halt Value
  | c, .int a, .int b => .ok (.bool (c.onInt a.toInt b.toInt))
  | c, .bool a, .bool b => .ok (.bool (c.onBool a b))
  | c, .str a, .str b => .ok (.bool (c.onStr a b))
  | _, _, _ => .error .stuck

end Cond

def Op.eval : Op → Value → Value → Except Halt Value
  | .arith op, a, b => op.eval a b
  | .compare c, a, b => c.eval a b

/-! ## Environments -/

/-- A block that is being run: its declarations and the values of its variables, by number. -/
structure Layer where
  decls : List Decl
  vars : Nat → Value

namespace Layer

def decl? (layer : Layer) (id : Nat) : Option Decl := layer.decls.find? fun d => d.head.id == id

/-- The layer of a block that begins: every variable has the default of its type. -/
def fresh (decls : List Decl) : Layer :=
  ⟨decls, fun id =>
    match (decls.find? fun d => d.head.id == id).bind fun d => d.head.ty with
    | some ty => ty.default
    | none => .int 0⟩

def set (layer : Layer) (id : Nat) (v : Value) : Layer :=
  { layer with vars := fun i => if i = id then v else layer.vars i }

end Layer

abbrev Env := List Layer

/-- A declaration, the layer that has it, and the layers inside and around that one. -/
structure Found where
  inner : List Layer
  layer : Layer
  outer : List Layer
  decl : Decl

namespace Env

/-- The innermost declaration with the number. -/
def find? (id : Nat) : Env → Option Found
  | [] => none
  | layer :: outer =>
    match layer.decl? id with
    | some d => some ⟨[], layer, outer, d⟩
    | none => (find? id outer).map fun f => { f with inner := layer :: f.inner }

/-- What the name means. -/
def lookup (env : Env) (ident : Ident) : Option Found := ident.decl.bind fun id => find? id env

end Env

/-- The value of an expression; the left operand comes before the right one. -/
def Expr.eval (env : Env) : Expr → Except Halt Value
  | .literal _ _ value => .ok value
  | .use ident _ =>
    match env.lookup ident with
    | some ⟨_, _, _, .const _ value⟩ => .ok value
    | some ⟨_, layer, _, .var head⟩ => .ok (layer.vars head.id)
    | _ => .error .stuck
  | .binary _ _ op lhs rhs => do
    let a ← lhs.eval env
    let b ← rhs.eval env
    op.eval a b

def Expr.evalGuard (env : Env) (e : Expr) : Except Halt Bool := do
  match ← e.eval env with
  | .bool b => return b
  | _ => throw .stuck

/-! ## Statements -/

/-- What statements act on. -/
structure World where
  env : Env
  console : Console

namespace World

def assign (w : World) (target : Ident) (v : Value) : Outcome World :=
  match w.env.lookup target with
  | some ⟨inner, layer, outer, .var head⟩ =>
    .done { w with env := inner ++ layer.set head.id v :: outer }
  | _ => .stuck

/-- Reads a line into a variable; the line is gone even if it holds no value of the right type. -/
def input (w : World) (target : Ident) : Outcome World :=
  match w.env.lookup target with
  | some ⟨_, _, _, .var head⟩ =>
    match head.ty with
    | some ty =>
      match w.console.read ty with
      | (.ok v, console) => { w with console := console }.assign target v
      | (.error fault, console) => .failed fault console
    | none => .stuck
  | _ => .stuck

def output (w : World) (v : Value) : World := { w with console := w.console.write (v.text ++ "\n") }

/-- Calls a procedure when `depth` activations are live.  The activation runs its body by `run`. -/
def call (w : World) (run : Stmt → World → Outcome World) (depth : Nat) (target : Ident) :
    Outcome World :=
  match w.env.lookup target with
  | some ⟨inner, layer, outer, .procedure _ decls body⟩ =>
    if maxCallDepth ≤ depth then .failed .callDepth w.console
    else
      (run body { w with env := .fresh decls :: layer :: outer }).bind fun w' =>
        .done { w' with env := inner ++ w'.env.tail }
  | _ => .stuck

end World

mutual

/-- Runs a statement when `depth` activations are live.  The bodies of procedures and the further
rounds of a loop are run by `again`. -/
def Stmt.evalWith (again : Nat → Stmt → World → Outcome World) (depth : Nat) :
    Stmt → World → Outcome World
  | .assign target expr, w => (Outcome.ofExcept w.console (expr.eval w.env)).bind (w.assign target)
  | .call _ target, w => w.call (again (depth + 1)) depth target
  | .input _ target, w => w.input target
  | .output _ expr, w =>
    (Outcome.ofExcept w.console (expr.eval w.env)).bind fun v => .done (w.output v)
  | .begin _ stmts, w => Stmt.evalListWith again depth stmts w
  | .if _ guard body, w =>
    (Outcome.ofExcept w.console (guard.evalGuard w.env)).bind fun b =>
      if b then body.evalWith again depth w else .done w
  | .while token guard body, w =>
    (Outcome.ofExcept w.console (guard.evalGuard w.env)).bind fun b =>
      if b then (body.evalWith again depth w).bind (again depth (.while token guard body))
      else .done w
  | .empty _, w => .done w

def Stmt.evalListWith (again : Nat → Stmt → World → Outcome World) (depth : Nat) :
    List Stmt → World → Outcome World
  | [], w => .done w
  | stmt :: stmts, w =>
    (stmt.evalWith again depth w).bind fun w => Stmt.evalListWith again depth stmts w

end

def Stmt.eval : (fuel : Nat) → (depth : Nat) → Stmt → World → Outcome World
  | 0 => fun _ _ _ => .spent
  | n + 1 => Stmt.evalWith (Stmt.eval n)

/-- Runs a program on an input; its own block is the first activation. -/
def Program.eval (fuel : Nat) (p : Program) (input : List UInt8) : Outcome World :=
  p.block.stmt.eval fuel 1 ⟨[.fresh p.block.decls], ⟨input, ""⟩⟩

/-- What there is to report of an evaluation that has come to an end. -/
def Outcome.report? : Outcome World → Option Report
  | done w => some ⟨w.console, none⟩
  | failed fault console => some ⟨console, some fault⟩
  | stuck => none
  | spent => none

/-! ## Fuel -/

/-- Where `r` is not spent, `r'` is the same. -/
def Outcome.Settles {α : Type} (r r' : Outcome α) : Prop := r = .spent ∨ r' = r

theorem Outcome.Settles.refl {α : Type} (r : Outcome α) : r.Settles r := .inr rfl

theorem Outcome.Settles.bind {α β : Type} {r r' : Outcome α} {next next' : α → Outcome β}
    (h : r.Settles r') (hnext : ∀ a, (next a).Settles (next' a)) :
    (r.bind next).Settles (r'.bind next') := by
  rcases h with rfl | rfl
  · exact .inl rfl
  · cases r' with
    | done a => exact hnext a
    | failed | stuck | spent => exact .inr rfl

section Fuel

variable {again again' : Nat → Stmt → World → Outcome World}

theorem World.settles_call {run run' : Stmt → World → Outcome World} {depth : Nat} {target : Ident}
    (w : World) (h : ∀ stmt w, (run stmt w).Settles (run' stmt w)) :
    (w.call run depth target).Settles (w.call run' depth target) := by
  unfold World.call
  split
  · split
    · exact .refl _
    · exact (h _ _).bind fun _ => .refl _
  · exact .refl _

mutual

theorem Stmt.settles_evalWith
    (h : ∀ depth stmt w, (again depth stmt w).Settles (again' depth stmt w))
    (depth : Nat) : (stmt : Stmt) → (w : World) →
      (stmt.evalWith again depth w).Settles (stmt.evalWith again' depth w)
  | .assign .., w | .input .., w | .output .., w | .empty _, w => by
    simp only [Stmt.evalWith]
    exact .refl _
  | .call _ target, w => by
    simp only [Stmt.evalWith]
    exact w.settles_call (h (depth + 1))
  | .begin _ stmts, w => by
    simp only [Stmt.evalWith]
    exact Stmt.settles_evalListWith h depth stmts w
  | .if _ guard body, w => by
    simp only [Stmt.evalWith]
    refine (Outcome.Settles.refl _).bind fun b => ?_
    cases b with
    | true => exact Stmt.settles_evalWith h depth body w
    | false => exact .refl _
  | .while token guard body, w => by
    simp only [Stmt.evalWith]
    refine (Outcome.Settles.refl _).bind fun b => ?_
    cases b with
    | true => exact (Stmt.settles_evalWith h depth body w).bind (h depth _)
    | false => exact .refl _

theorem Stmt.settles_evalListWith
    (h : ∀ depth stmt w, (again depth stmt w).Settles (again' depth stmt w))
    (depth : Nat) : (stmts : List Stmt) → (w : World) →
      (Stmt.evalListWith again depth stmts w).Settles (Stmt.evalListWith again' depth stmts w)
  | [], w => by
    simp only [Stmt.evalListWith]
    exact .refl _
  | stmt :: stmts, w => by
    simp only [Stmt.evalListWith]
    exact (Stmt.settles_evalWith h depth stmt w).bind fun w =>
      Stmt.settles_evalListWith h depth stmts w

end

theorem Stmt.settles_eval (n : Nat) : ∀ (depth : Nat) (stmt : Stmt) (w : World),
    (stmt.eval n depth w).Settles (stmt.eval (n + 1) depth w) := by
  induction n with
  | zero => exact fun _ _ _ => .inl rfl
  | succ n ih => exact fun depth stmt w => Stmt.settles_evalWith ih depth stmt w

/-- More fuel does not change what an evaluation has come to. -/
theorem Program.report?_eval_of_le {p : Program} {input : List UInt8} {r : Report} {n m : Nat}
    (h : (p.eval n input).report? = some r) (hle : n ≤ m) : (p.eval m input).report? = some r := by
  induction hle with
  | refl => exact h
  | @step m _ ih =>
    rcases Stmt.settles_eval m 1 p.block.stmt ⟨[.fresh p.block.decls], ⟨input, ""⟩⟩ with
      hspent | hsame
    · have hnone : (p.eval m input).report? = none := by
        rw [Program.eval, hspent]
        rfl
      rw [hnone] at ih
      cases ih
    · rw [Program.eval, hsame]
      exact ih

end Fuel

end PLZero
