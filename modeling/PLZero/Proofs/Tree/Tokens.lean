import PLZero.Proofs.Tree.Numbering

/-!
# The tokens and the names of a tree

* `Program.From` — every token that the tree holds has a property.
* `Program.Distinct` — no block declares a name twice.

Numbers have no part in either.
-/

namespace PLZero

/-! ## Tokens -/

def Expr.From (T : Token → Prop) : Expr → Prop
  | .literal token _ _ => T token
  | .use ident _ => T ident.token
  | .binary token _ _ lhs rhs => T token ∧ lhs.From T ∧ rhs.From T

mutual

def Stmt.From (T : Token → Prop) : Stmt → Prop
  | .assign target expr => T target.token ∧ expr.From T
  | .call token target => T token ∧ T target.token
  | .input token target => T token ∧ T target.token
  | .output token expr => T token ∧ expr.From T
  | .begin token stmts => T token ∧ Stmt.FromList T stmts
  | .if token guard body => T token ∧ guard.From T ∧ body.From T
  | .while token guard body => T token ∧ guard.From T ∧ body.From T
  | .empty token => T token

def Stmt.FromList (T : Token → Prop) : List Stmt → Prop
  | [] => True
  | s :: ss => s.From T ∧ Stmt.FromList T ss

end

mutual

def Decl.From (T : Token → Prop) : Decl → Prop
  | .const head _ => T head.token
  | .var head => T head.token
  | .procedure head decls stmt => T head.token ∧ Decl.FromList T decls ∧ stmt.From T

def Decl.FromList (T : Token → Prop) : List Decl → Prop
  | [] => True
  | d :: ds => d.From T ∧ Decl.FromList T ds

end

def Block.From (T : Token → Prop) (b : Block) : Prop := Decl.FromList T b.decls ∧ b.stmt.From T

def Program.From (T : Token → Prop) (p : Program) : Prop := p.block.From T

section From

variable {T : Token → Prop}

theorem Expr.From.token {e : Expr} (h : e.From T) : T e.token := by
  cases e with
  | literal | use => exact h
  | binary => exact h.1

theorem Stmt.From.token {s : Stmt} (h : s.From T) : T s.token := by
  cases s with
  | empty => exact h
  | _ => exact h.1

theorem Decl.From.token {d : Decl} (h : d.From T) : T d.head.token := by
  cases d with
  | const | var => exact h
  | procedure => exact h.1

theorem Stmt.fromList_iff {ss : List Stmt} : Stmt.FromList T ss ↔ ∀ s ∈ ss, s.From T := by
  induction ss with
  | nil => simp [Stmt.FromList]
  | cons s ss ih => simp [Stmt.FromList, ih]

theorem Decl.fromList_iff {ds : List Decl} : Decl.FromList T ds ↔ ∀ d ∈ ds, d.From T := by
  induction ds with
  | nil => simp [Decl.FromList]
  | cons d ds ih => simp [Decl.FromList, ih]

end From

/-! ## Names -/

mutual

/-- No block inside the declaration declares a name twice. -/
def Decl.Distinct : Decl → Prop
  | .procedure _ decls _ => (decls.map Decl.name).Nodup ∧ Decl.DistinctList decls
  | _ => True

def Decl.DistinctList : List Decl → Prop
  | [] => True
  | d :: ds => d.Distinct ∧ Decl.DistinctList ds

end

structure Program.Distinct (p : Program) : Prop where
  nodup : (p.block.decls.map Decl.name).Nodup
  decls : Decl.DistinctList p.block.decls

theorem Decl.distinctList_iff {ds : List Decl} : DistinctList ds ↔ ∀ d ∈ ds, d.Distinct := by
  induction ds with
  | nil => simp [DistinctList]
  | cons d ds ih => simp [DistinctList, ih]

/-! ## Numbers -/

section Number

variable {T : Token → Prop}

mutual

theorem Decl.From.number (next : Nat) : (d : Decl) → d.From T → (d.number next).1.From T
  | .const .., h | .var _, h => h
  | .procedure _ decls _, h => ⟨h.1, Decl.FromList.number (next + 1) decls h.2.1, h.2.2⟩

theorem Decl.FromList.number (next : Nat) :
    (ds : List Decl) → Decl.FromList T ds → Decl.FromList T (Decl.numberList next ds).1
  | [], _ => trivial
  | d :: ds, h => ⟨Decl.From.number next d h.1, Decl.FromList.number _ ds h.2⟩

end

mutual

theorem Decl.Distinct.number (next : Nat) : (d : Decl) → d.Distinct → (d.number next).1.Distinct
  | .const .., _ | .var _, _ => trivial
  | .procedure head decls stmt, h => by
    refine ⟨?_, Decl.DistinctList.number (next + 1) decls h.2⟩
    simp only [Decl.names_number]
    exact h.1

theorem Decl.DistinctList.number (next : Nat) :
    (ds : List Decl) → Decl.DistinctList ds → Decl.DistinctList (Decl.numberList next ds).1
  | [], _ => trivial
  | d :: ds, h => ⟨Decl.Distinct.number next d h.1, Decl.DistinctList.number _ ds h.2⟩

end

end Number

end PLZero
