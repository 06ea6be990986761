import PLZero.Typing.Inference

/-!
# The typing rules

What it means for the types that a tree carries to be right, said without any passes.

* `Expr.HasTy`, `Stmt.WellTyped`, `Decl.WellTyped`, `Program.WellTyped` — the rules, over a tree
  whose slots are all full.  They read the types of declarations from a `Signature`; that of a
  program is made of its own declarations.
* An operator table is a parameter of the rules.  `Op.resultTy?` is the table of the language;
  `Op.looseTy?` has no gaps: arithmetic keeps the type of its operands, whatever it is.
* `Program.untyped` — the tree with its type slots emptied.
* `IsTyping` — a typing of a program is the same tree with types that obey the rules.
-/

namespace PLZero

/-- The type of an operation on two operands of one type, where it has one. -/
abbrev OpTable := Op → Ty → Option Ty

/-- The operator table without gaps: every operator applies to operands of every value type. -/
def Op.looseTy? (op : Op) (operand : Ty) : Option Ty :=
  if operand.isValue then
    some (match op with
      | .arith _ => operand
      | .compare _ => .boolean)
  else none

/-- The kinds and types of declarations, by their numbers. -/
abbrev Signature := Nat → Option (DeclKind × Ty)

/-! ## The rules -/

inductive Expr.HasTy (T : OpTable) (Γ : Signature) : Expr → Ty → Prop where
  | literal (token : Token) (value : Value) :
      HasTy T Γ (.literal token (some value.ty) value) value.ty
  | use {ident : Ident} {id : Nat} {kind : DeclKind} {ty : Ty} :
      ident.decl = some id → Γ id = some (kind, ty) → kind ≠ .procedure → ty.isValue = true →
      HasTy T Γ (.use ident (some ty)) ty
  | binary {token : Token} {op : Op} {lhs rhs : Expr} {operand ty : Ty} :
      HasTy T Γ lhs operand → HasTy T Γ rhs operand → T op operand = some ty →
      HasTy T Γ (.binary token (some ty) op lhs rhs) ty

inductive Stmt.WellTyped (T : OpTable) (Γ : Signature) : Stmt → Prop where
  | assign {target : Ident} {expr : Expr} {id : Nat} {ty : Ty} :
      target.decl = some id → Γ id = some (.var, ty) → expr.HasTy T Γ ty →
      WellTyped T Γ (.assign target expr)
  | call {token : Token} {target : Ident} {id : Nat} {ty : Ty} :
      target.decl = some id → Γ id = some (.procedure, ty) → WellTyped T Γ (.call token target)
  | input {token : Token} {target : Ident} {id : Nat} {ty : Ty} :
      target.decl = some id → Γ id = some (.var, ty) → WellTyped T Γ (.input token target)
  | output {token : Token} {expr : Expr} {ty : Ty} :
      expr.HasTy T Γ ty → WellTyped T Γ (.output token expr)
  | begin {token : Token} {stmts : List Stmt} :
      (∀ s ∈ stmts, WellTyped T Γ s) → WellTyped T Γ (.begin token stmts)
  | «if» {token : Token} {guard : Expr} {body : Stmt} :
      guard.HasTy T Γ .boolean → WellTyped T Γ body → WellTyped T Γ (.if token guard body)
  | «while» {token : Token} {guard : Expr} {body : Stmt} :
      guard.HasTy T Γ .boolean → WellTyped T Γ body → WellTyped T Γ (.while token guard body)
  | empty (token : Token) : WellTyped T Γ (.empty token)

inductive Decl.WellTyped (T : OpTable) (Γ : Signature) : Decl → Prop where
  | const {head : DeclHead} {value : Value} :
      head.ty = some value.ty → WellTyped T Γ (.const head value)
  | var {head : DeclHead} {ty : Ty} :
      head.ty = some ty → ty.isValue = true → WellTyped T Γ (.var head)
  | procedure {head : DeclHead} {decls : List Decl} {stmt : Stmt} :
      head.ty = some .procedure → (∀ d ∈ decls, WellTyped T Γ d) → stmt.WellTyped T Γ →
      WellTyped T Γ (.procedure head decls stmt)

namespace Program

/-- What the declarations of the program say of each number. -/
def signature (p : Program) : Signature := fun id =>
  (p.declarations.find? fun d => d.head.id == id).bind fun d => d.head.ty.map (d.kind, ·)

/-- The types that the program carries obey the rules. -/
structure WellTyped (T : OpTable) (p : Program) : Prop where
  decls : ∀ d ∈ p.block.decls, d.WellTyped T p.signature
  stmt : p.block.stmt.WellTyped T p.signature

end Program

/-! ## Trees without types -/

def Expr.untyped : Expr → Expr
  | .literal token _ value => .literal token none value
  | .use ident _ => .use ident none
  | .binary token _ op lhs rhs => .binary token none op lhs.untyped rhs.untyped

mutual

def Stmt.untyped : Stmt → Stmt
  | .assign target expr => .assign target expr.untyped
  | .call token target => .call token target
  | .input token target => .input token target
  | .output token expr => .output token expr.untyped
  | .begin token stmts => .begin token (Stmt.untypedList stmts)
  | .if token guard body => .if token guard.untyped body.untyped
  | .while token guard body => .while token guard.untyped body.untyped
  | .empty token => .empty token

def Stmt.untypedList : List Stmt → List Stmt
  | [] => []
  | s :: ss => s.untyped :: Stmt.untypedList ss

end

def DeclHead.untyped (head : DeclHead) : DeclHead := { head with ty := none }

mutual

def Decl.untyped : Decl → Decl
  | .const head value => .const head.untyped value
  | .var head => .var head.untyped
  | .procedure head decls stmt => .procedure head.untyped (Decl.untypedList decls) stmt.untyped

def Decl.untypedList : List Decl → List Decl
  | [] => []
  | d :: ds => d.untyped :: Decl.untypedList ds

end

def Block.untyped (b : Block) : Block := ⟨Decl.untypedList b.decls, b.stmt.untyped⟩

def Program.untyped (p : Program) : Program := { p with block := p.block.untyped }

/-- `q` is the program `p` with types that obey the rules. -/
structure IsTyping (T : OpTable) (p q : Program) : Prop where
  same : q.untyped = p.untyped
  wellTyped : q.WellTyped T

/-! ## Tables -/

namespace OpTable

/-- What the rules need of an operator table: it agrees with that of the language where that is
defined, and even in its gaps keeps to the two forms that a result can have. -/
structure Regular (T : OpTable) : Prop where
  agrees : ∀ {op : Op} {operand ty : Ty}, op.resultTy? operand = some ty → T op operand = some ty
  arith : ∀ {a : Arith} {operand ty : Ty}, T (.arith a) operand = some ty → ty = operand
  compare : ∀ {c : Cond} {operand ty : Ty}, T (.compare c) operand = some ty → ty = .boolean
  value : ∀ {op : Op} {operand ty : Ty}, T op operand = some ty → operand.isValue = true

theorem regular_resultTy : Regular Op.resultTy? where
  agrees h := h
  arith {a operand ty} h := by
    cases a <;> cases operand <;> simp_all [Op.resultTy?]
  compare {c operand ty} h := by
    cases operand <;> simp_all [Op.resultTy?]
  value {op operand ty} h := by
    cases operand <;> first | rfl | simp [Op.resultTy?] at h

theorem regular_looseTy : Regular Op.looseTy? where
  agrees {op operand ty} h := by
    rcases op with a | c
    · have hty := regular_resultTy.arith h
      have hval := regular_resultTy.value h
      simp [Op.looseTy?, hval, hty]
    · have hty := regular_resultTy.compare h
      have hval := regular_resultTy.value h
      simp [Op.looseTy?, hval, hty]
  arith {a operand ty} h := by
    simp only [Op.looseTy?] at h
    split at h <;> simp_all
  compare {c operand ty} h := by
    simp only [Op.looseTy?] at h
    split at h <;> simp_all
  value {op operand ty} h := by
    simp only [Op.looseTy?] at h
    split at h <;> simp_all

end OpTable

/-! ## First facts about the rules -/

namespace Expr

variable {T T' : OpTable} {Γ : Signature} {e : Expr} {ty : Ty}

theorem HasTy.ty_eq (h : e.HasTy T Γ ty) : e.ty = some ty := by
  cases h <;> rfl

theorem HasTy.isValue (hT : T.Regular) (h : e.HasTy T Γ ty) : ty.isValue = true := by
  cases h with
  | literal token value => cases value <;> rfl
  | use _ _ _ hval => exact hval
  | @binary _ op _ _ operand _ _ _ hop =>
    rcases op with a | c
    · rw [hT.arith hop]; exact hT.value hop
    · rw [hT.compare hop]; rfl

theorem HasTy.mono
    (hT : ∀ {op : Op} {operand ty : Ty}, T op operand = some ty → T' op operand = some ty)
    (h : e.HasTy T Γ ty) : e.HasTy T' Γ ty := by
  induction h with
  | literal token value => exact .literal token value
  | use hdecl hsig hkind hval => exact .use hdecl hsig hkind hval
  | binary _ _ hop ihl ihr => exact .binary ihl ihr (hT hop)

end Expr

section Monotone

variable {T T' : OpTable} {Γ : Signature}
  (hT : ∀ {op : Op} {operand ty : Ty}, T op operand = some ty → T' op operand = some ty)
include hT

theorem Stmt.WellTyped.mono {stmt : Stmt} (h : stmt.WellTyped T Γ) : stmt.WellTyped T' Γ := by
  induction h with
  | assign hdecl hsig he => exact .assign hdecl hsig (he.mono hT)
  | call hdecl hsig => exact .call hdecl hsig
  | input hdecl hsig => exact .input hdecl hsig
  | output he => exact .output (he.mono hT)
  | begin _ ih => exact .begin ih
  | «if» hg _ ih => exact .if (hg.mono hT) ih
  | «while» hg _ ih => exact .while (hg.mono hT) ih
  | empty token => exact .empty token

theorem Decl.WellTyped.mono {d : Decl} (h : d.WellTyped T Γ) : d.WellTyped T' Γ := by
  induction h with
  | const hty => exact .const hty
  | var hty hval => exact .var hty hval
  | procedure hty _ hs ih => exact .procedure hty ih (hs.mono hT)

theorem IsTyping.mono {p q : Program} (h : IsTyping T p q) : IsTyping T' p q :=
  ⟨h.same, fun d hd => (h.wellTyped.decls d hd).mono hT, h.wellTyped.stmt.mono hT⟩

end Monotone

/-! ## The expressions of a well-typed tree -/

theorem Stmt.exprsList_eq_flatMap (ss : List Stmt) : Stmt.exprsList ss = ss.flatMap Stmt.exprs := by
  induction ss with
  | nil => rfl
  | cons s ss ih => rw [Stmt.exprsList, ih, List.flatMap_cons]

theorem Decl.exprsList_eq_flatMap (ds : List Decl) : Decl.exprsList ds = ds.flatMap Decl.exprs := by
  induction ds with
  | nil => rfl
  | cons d ds ih => rw [Decl.exprsList, ih, List.flatMap_cons]

section Expressions

variable {T : OpTable} {Γ : Signature} {x : Expr}

theorem Expr.HasTy.subexprs {e : Expr} {ty : Ty} (h : e.HasTy T Γ ty) (hx : x ∈ e.subexprs) :
    ∃ ty, x.HasTy T Γ ty := by
  induction h with
  | literal token value =>
    rw [List.mem_singleton.mp hx]
    exact ⟨_, .literal token value⟩
  | use hdecl hsig hkind hval =>
    rw [List.mem_singleton.mp hx]
    exact ⟨_, .use hdecl hsig hkind hval⟩
  | binary hl hr hop ihl ihr =>
    simp only [Expr.subexprs, List.cons_append, List.mem_cons, List.mem_append] at hx
    rcases hx with rfl | hx | hx
    · exact ⟨_, .binary hl hr hop⟩
    · exact ihl hx
    · exact ihr hx

theorem Stmt.WellTyped.exprs {stmt : Stmt} (h : stmt.WellTyped T Γ) (hx : x ∈ stmt.exprs) :
    ∃ ty, x.HasTy T Γ ty := by
  induction h with
  | assign _ _ he => exact he.subexprs hx
  | call | input | empty => cases hx
  | output he => exact he.subexprs hx
  | begin _ ih =>
    rw [Stmt.exprs, Stmt.exprsList_eq_flatMap, List.mem_flatMap] at hx
    obtain ⟨s, hs, hx⟩ := hx
    exact ih s hs hx
  | «if» hg _ ih | «while» hg _ ih =>
    rw [Stmt.exprs, List.mem_append] at hx
    exact hx.elim hg.subexprs ih

theorem Decl.WellTyped.exprs {d : Decl} (h : d.WellTyped T Γ) (hx : x ∈ d.exprs) :
    ∃ ty, x.HasTy T Γ ty := by
  induction h with
  | const | var => cases hx
  | procedure _ _ hs ih =>
    rw [Decl.exprs, Decl.exprsList_eq_flatMap, List.mem_append, List.mem_flatMap] at hx
    rcases hx with ⟨d, hd, hx⟩ | hx
    · exact ih d hd hx
    · exact hs.exprs hx

/-- Every expression of a well-typed program has a type. -/
theorem Program.WellTyped.expressions {p : Program} (h : p.WellTyped T) (hx : x ∈ p.expressions) :
    ∃ ty, x.HasTy T p.signature ty := by
  rw [Program.expressions, Decl.exprsList_eq_flatMap, List.mem_append, List.mem_flatMap] at hx
  rcases hx with ⟨d, hd, hx⟩ | hx
  · exact (h.decls d hd).exprs hx
  · exact h.stmt.exprs hx

end Expressions

end PLZero
