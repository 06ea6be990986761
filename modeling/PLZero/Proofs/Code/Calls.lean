import Mathlib.Data.List.Nodup
import PLZero.Proofs.Code.Assembly

/-!
# Calls in code

* `Program.block?` — the block that a routine was made for.
* `Stmt.calls` — the uses of names by which a statement calls procedures.
* `Stmt.exists_call` — every call in the code of a statement comes from one of these.
* `Program.Assembled.exists_code` — the code of a routine is that of the statement of its block.
-/

namespace PLZero

mutual

/-- The names in the calls of a statement. -/
def Stmt.calls : Stmt → List Ident
  | .call _ target => [target]
  | .begin _ stmts => Stmt.callsList stmts
  | .if _ _ body => body.calls
  | .while _ _ body => body.calls
  | _ => []

def Stmt.callsList : List Stmt → List Ident
  | [] => []
  | s :: ss => s.calls ++ Stmt.callsList ss

end

/-- The block of a procedure that has routine `r`. -/
def Decl.block? (l : Layout) (r : Nat) : Decl → Option Block
  | .procedure head decls stmt =>
    if (l.get? head.id).bind Storage.index? = some r then some ⟨decls, stmt⟩ else none
  | _ => none

/-- The block that routine `r` is made for. -/
def Program.block? (p : Program) (l : Layout) (r : Nat) : Option Block :=
  if r = 0 then some p.block else p.declarations.findSome? (Decl.block? l r)

/-! ## Calls of a statement -/

section Calls

variable {l : Layout} {c c' : Nat} {seg : List Instr} {callee up : Nat}

theorem not_call_branchCode {branch : Label → Instr}
    (hbranch : ∀ label, branch label ≠ .call callee up) (h : branchCode branch c = .ok (seg, c')) :
    .call callee up ∉ seg := by
  obtain ⟨rfl, -⟩ := code_branch h
  simp [Ne.symm (hbranch _)]

theorem Op.not_call_code {op : Op} {operand : Ty} {line : Nat}
    (h : op.code operand line c = .ok (seg, c')) : .call callee up ∉ seg := by
  cases op with
  | arith a =>
    simp only [Op.code] at h
    cases hi : a.instr? operand with
    | none =>
      rw [hi] at h
      cases h
    | some i =>
      rw [hi] at h
      obtain ⟨rfl, -⟩ := Emit.of_pure h
      cases a <;> cases operand <;> cases hi <;> simp
  | compare cond =>
    cases operand with
    | procedure => cases h
    | number | boolean => exact not_call_branchCode (fun _ => by simp) h
    | string =>
      cases cond with
      | eq | ne => exact not_call_branchCode (fun _ => by simp) h
      | lt | le | gt | ge =>
        obtain ⟨rfl, -⟩ := Emit.of_pure h
        simp [strictCode]

theorem Expr.not_call_code (e : Expr) : ∀ {c c' : Nat} {seg : List Instr},
    e.code l c = .ok (seg, c') → .call callee up ∉ seg := by
  induction e with
  | literal token ty value =>
    intro c c' seg h
    obtain ⟨rfl, -⟩ := Expr.code_literal h
    simp
  | use ident ty =>
    intro c c' seg h
    obtain ⟨i, hi, rfl, -⟩ := Expr.code_use h
    rcases Layout.loadInstr_cases hi with ⟨_, _, _, rfl⟩ | ⟨_, _, _, _, _, rfl⟩ <;> simp
  | binary token ty op lhs rhs ihl ihr =>
    intro c c' seg h
    obtain ⟨left, right, operation, operand, c₁, c₂, hl, hr, -, hop, rfl⟩ := Expr.code_binary h
    rw [List.mem_append, List.mem_append]
    rintro (hmem | hmem | hmem)
    · exact ihl hl hmem
    · exact ihr hr hmem
    · exact Op.not_call_code hop hmem

mutual

/-- A call in the code of a statement is one of its calls. -/
theorem Stmt.exists_call : (stmt : Stmt) → ∀ {c c' : Nat} {seg : List Instr},
    stmt.code l c = .ok (seg, c') → .call callee up ∈ seg →
    ∃ target ∈ stmt.calls, l.callInstr target = .ok (.call callee up)
  | .assign target expr, c, c', seg, h, hmem => by
    obtain ⟨value, i, he, hi, rfl⟩ := Stmt.code_assign h
    obtain ⟨_, _, _, _, _, rfl⟩ := Layout.storeInstr_cases hi
    simp [expr.not_call_code he] at hmem
  | .call token target, c, c', seg, h, hmem => by
    obtain ⟨i, hi, rfl, -⟩ := Stmt.code_call h
    rw [← List.mem_singleton.mp hmem] at hi
    exact ⟨target, by simp [Stmt.calls], hi⟩
  | .input token target, c, c', seg, h, hmem => by
    obtain ⟨ty, i, -, hi, rfl, -⟩ := Stmt.code_input h
    obtain ⟨_, _, _, _, _, rfl⟩ := Layout.storeInstr_cases hi
    simp at hmem
  | .output token expr, c, c', seg, h, hmem => by
    obtain ⟨value, ty, he, -, rfl⟩ := Stmt.code_output h
    simp [expr.not_call_code he] at hmem
  | .begin token stmts, c, c', seg, h, hmem => by
    rw [Stmt.code] at h
    rw [Stmt.calls]
    exact Stmt.exists_callList stmts h hmem
  | .if token guard body, c, c', seg, h, hmem => by
    obtain ⟨test, run, c₁, htest, hrun, rfl⟩ := Stmt.code_if h
    rw [Stmt.calls]
    refine Stmt.exists_call body hrun ?_
    simpa [guard.not_call_code htest] using hmem
  | .while token guard body, c, c', seg, h, hmem => by
    obtain ⟨run, test, c₁, hrun, htest, rfl⟩ := Stmt.code_while h
    rw [Stmt.calls]
    refine Stmt.exists_call body hrun ?_
    simpa [guard.not_call_code htest] using hmem
  | .empty token, c, c', seg, h, hmem => by
    rw [Stmt.code] at h
    obtain ⟨rfl, -⟩ := Emit.of_pure h
    cases hmem

theorem Stmt.exists_callList : (stmts : List Stmt) → ∀ {c c' : Nat} {seg : List Instr},
    Stmt.codeList l stmts c = .ok (seg, c') → .call callee up ∈ seg →
    ∃ target ∈ Stmt.callsList stmts, l.callInstr target = .ok (.call callee up)
  | [], c, c', seg, h, hmem => by
    rw [Stmt.codeList] at h
    obtain ⟨rfl, -⟩ := Emit.of_pure h
    cases hmem
  | stmt :: stmts, c, c', seg, h, hmem => by
    obtain ⟨first, rest, c₁, hs, hss, rfl⟩ := Stmt.codeList_cons h
    simp only [Stmt.callsList, List.mem_append]
    rcases List.mem_append.mp hmem with hmem | hmem
    · obtain ⟨target, htarget, hcall⟩ := Stmt.exists_call stmt hs hmem
      exact ⟨target, .inl htarget, hcall⟩
    · obtain ⟨target, htarget, hcall⟩ := Stmt.exists_callList stmts hss hmem
      exact ⟨target, .inr htarget, hcall⟩

end

mutual

theorem Stmt.Bound.calls {Δ : Scopes} : (stmt : Stmt) → stmt.Bound Δ →
    ∀ target ∈ stmt.calls, target.Bound Δ
  | .call _ target, h, x, hx => by
    rw [Stmt.calls] at hx
    rw [List.mem_singleton.mp hx]
    exact h
  | .begin _ stmts, h, x, hx => by
    rw [Stmt.calls] at hx
    exact Stmt.BoundList.calls stmts h x hx
  | .if _ _ body, h, x, hx | .while _ _ body, h, x, hx => by
    rw [Stmt.calls] at hx
    exact Stmt.Bound.calls body h.2 x hx
  | .assign .., _, x, hx | .input .., _, x, hx | .output .., _, x, hx | .empty _, _, x, hx => by
    simp [Stmt.calls] at hx

theorem Stmt.BoundList.calls {Δ : Scopes} : (stmts : List Stmt) → Stmt.BoundList Δ stmts →
    ∀ target ∈ Stmt.callsList stmts, target.Bound Δ
  | [], _, x, hx => by
    rw [Stmt.callsList] at hx
    cases hx
  | stmt :: stmts, h, x, hx => by
    rw [Stmt.callsList, List.mem_append] at hx
    rcases hx with hx | hx
    · exact Stmt.Bound.calls stmt h.1 x hx
    · exact Stmt.BoundList.calls stmts h.2 x hx

end

end Calls

/-! ## Routines and their blocks -/

namespace Program

variable {p : Program} {l : Layout} {r : Nat}

theorem exists_of_declBlock? {d : Decl} {block : Block} (h : d.block? l r = some block) :
    ∃ head nest, d = .procedure head block.decls block.stmt ∧
      l.get? head.id = some (.routine r nest) := by
  cases d with
  | procedure head decls stmt =>
    simp only [Decl.block?] at h
    split at h
    · rename_i hindex
      cases h
      obtain ⟨storage, hget, hr⟩ := Option.bind_eq_some_iff.mp hindex
      cases storage with
      | routine index nest =>
        cases hr
        exact ⟨head, nest, rfl, hget⟩
      | constant | «variable» => cases hr
    · cases h
  | const | var => cases h

theorem block?_procedure {head : DeclHead} {decls : List Decl} {stmt : Stmt} {nest : Nat}
    (hsound : l.Sound) (hnodup : (Decl.ids p.declarations).Nodup)
    (hmem : .procedure head decls stmt ∈ p.declarations)
    (hget : l.get? head.id = some (.routine r nest)) : p.block? l r = some ⟨decls, stmt⟩ := by
  have hr : r ≠ 0 := Nat.ne_of_gt (hsound.lt_of_get? hget).1
  rw [block?, if_neg hr]
  cases hfind : p.declarations.findSome? (Decl.block? l r) with
  | none =>
    rw [List.findSome?_eq_none_iff] at hfind
    have hnone := hfind _ hmem
    simp [Decl.block?, hget, Storage.index?] at hnone
  | some block =>
    -- A routine belongs to one number, and a number to one declaration.
    obtain ⟨d, hd, hblock⟩ := List.exists_of_findSome?_eq_some hfind
    obtain ⟨head', nest', rfl, hget'⟩ := exists_of_declBlock? hblock
    have hid : head'.id = head.id := hsound.id_eq hget' hget
    cases List.inj_on_of_nodup_map hnodup hd hmem hid
    rfl

theorem exists_of_block? {block : Block} (h : p.block? l r = some block) :
    (r = 0 ∧ block = p.block) ∨
      ∃ head nest, .procedure head block.decls block.stmt ∈ p.declarations ∧
        l.get? head.id = some (.routine r nest) := by
  unfold block? at h
  split at h
  · rename_i hr
    exact .inl ⟨hr, (Option.some.inj h).symm⟩
  · obtain ⟨d, hd, hblock⟩ := List.exists_of_findSome?_eq_some h
    obtain ⟨head, nest, rfl, hget⟩ := exists_of_declBlock? hblock
    exact .inr ⟨head, nest, hd, hget⟩

/-- The code of a routine of a unit is that of the statement of its block, and a return. -/
theorem Assembled.exists_code {u : CodeUnit} {es : List (Nat × List Instr)} {c : Nat}
    {block : Block} {routine : Routine} (hall : p.Assembled l es c)
    (h : assemble es 0 l.frames.toList = .ok u.routines) (hblock : p.block? l r = some block)
    (hroutine : u.routines[r]? = some routine) :
    ∃ seg c₁ c₂, block.stmt.code l c₁ = .ok (seg, c₂) ∧ routine.code = seg ++ [.ret] := by
  obtain ⟨seg, c₁, c₂, hcode, hmem⟩ : ∃ seg c₁ c₂, block.stmt.code l c₁ = .ok (seg, c₂) ∧
      (r, seg ++ [.ret]) ∈ es := by
    rcases exists_of_block? hblock with ⟨rfl, rfl⟩ | ⟨head, nest, hmem, hget⟩
    · exact hall.main
    · obtain ⟨index, nest', seg, c₁, c₂, hget', hcode, hin⟩ := hall.procedures _ _ _ hmem
      rw [hget] at hget'
      cases hget'
      exact ⟨seg, c₁, c₂, hcode, hin⟩
  obtain ⟨hlength, hframes⟩ := getElem?_assemble h
  have hlt := (List.getElem?_eq_some_iff.mp hroutine).1
  obtain ⟨code, hlookup, hr⟩ := hframes r _ (List.getElem?_eq_getElem (by omega))
  rw [Nat.zero_add, lookup_of_mem hall.nodup hmem] at hlookup
  rw [hroutine] at hr
  cases hlookup
  cases hr
  exact ⟨seg, c₁, c₂, hcode, rfl⟩

end Program

end PLZero
