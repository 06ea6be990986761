import PLZero.Code.Generate

/-!
# The code of a tree, piece by piece

Each lemma takes one form of expression or statement for which code was made and says of which
pieces the code consists, and with which numbers of the next label each piece was made.
-/

namespace PLZero

/-! ## Making code -/

theorem exists_of_bind_ok {ε α β : Type} {x : Except ε α} {next : α → Except ε β} {b : β}
    (h : (x >>= next) = .ok b) : ∃ a, x = .ok a ∧ next a = .ok b := by
  cases x with
  | error f => cases h
  | ok a => exact ⟨a, rfl, h⟩

namespace Emit

variable {α β : Type} {c c' : Nat}

theorem of_bind {m : Emit α} {next : α → Emit β} {b : β} (h : (m >>= next) c = .ok (b, c')) :
    ∃ a c₁, m c = .ok (a, c₁) ∧ next a c₁ = .ok (b, c') := by
  obtain ⟨x, hx, h⟩ := exists_of_bind_ok h
  exact ⟨x.1, x.2, hx, h⟩

theorem of_pure {a b : α} (h : (pure a : Emit α) c = .ok (b, c')) : a = b ∧ c = c' := by
  cases h
  exact ⟨rfl, rfl⟩

theorem of_lift {x : Except CodeFault α} {a : α} (h : (liftM x : Emit α) c = .ok (a, c')) :
    x = .ok a ∧ c = c' := by
  cases x with
  | error f => cases h
  | ok b =>
    cases h
    exact ⟨rfl, rfl⟩

theorem of_freshLabel {label : Label} (h : freshLabel c = .ok (label, c')) :
    UInt32.ofNat c = label ∧ c + 1 = c' := by
  cases h
  exact ⟨rfl, rfl⟩

end Emit

open Emit

variable {l : Layout} {c c' : Nat} {seg : List Instr}

/-! ## Names -/

namespace Layout

variable {ident : Ident} {i : Instr}

/-- The name has the given place, and is used at the given depth. -/
structure Finds (l : Layout) (ident : Ident) (storage : Storage) (nest : Nat) : Prop where
  nest : ident.nest = some nest
  get? : ∀ id, ident.decl = some id → l.get? id = some storage

theorem finds_of_find {storage : Storage} {nest : Nat} (h : l.find ident = .ok (storage, nest)) :
    l.Finds ident storage nest := by
  unfold find at h
  cases hdecl : ident.decl with
  | none => simp [hdecl] at h
  | some id =>
    cases hnest : ident.nest with
    | none => simp [hdecl, hnest] at h
    | some n =>
      simp only [hdecl, hnest] at h
      cases hget : l.get? id with
      | none => simp [hget] at h
      | some s =>
        simp only [hget] at h
        cases h
        exact ⟨hnest, fun id' hid' => by rw [← Option.some.inj (hdecl.symm.trans hid'), hget]⟩

theorem bind_find {α : Type} {next : Storage × Nat → Except CodeFault α} {a : α}
    (h : (l.find ident >>= next) = .ok a) :
    ∃ storage nest, l.Finds ident storage nest ∧ next (storage, nest) = .ok a := by
  obtain ⟨x, hx, h⟩ := exists_of_bind_ok h
  exact ⟨x.1, x.2, finds_of_find hx, h⟩

theorem bind_distance {nest declNest : Nat} {next : Nat → Except CodeFault Instr}
    (h : (distance ident nest declNest >>= next) = .ok i) :
    declNest ≤ nest ∧ next (nest - declNest) = .ok i := by
  unfold distance at h
  split at h
  · exact ⟨‹_›, h⟩
  · cases h

theorem loadInstr_cases (h : l.loadInstr ident = .ok i) :
    (∃ value nest, l.Finds ident (.constant value) nest ∧ i = .push value) ∨
    ∃ slot declNest ty nest, l.Finds ident (.variable slot declNest ty) nest ∧
      i = .load (nest - declNest) slot := by
  obtain ⟨storage, nest, hfind, h⟩ := bind_find h
  cases storage with
  | constant value => exact .inl ⟨value, nest, hfind, (Except.ok.inj h).symm⟩
  | «variable» slot declNest ty =>
    obtain ⟨-, h⟩ := bind_distance h
    exact .inr ⟨slot, declNest, ty, nest, hfind, (Except.ok.inj h).symm⟩
  | routine index declNest => cases h

theorem storeInstr_cases (h : l.storeInstr ident = .ok i) :
    ∃ slot declNest ty nest, l.Finds ident (.variable slot declNest ty) nest ∧
      i = .store (nest - declNest) slot := by
  obtain ⟨storage, nest, hfind, h⟩ := bind_find h
  cases storage with
  | «variable» slot declNest ty =>
    obtain ⟨-, h⟩ := bind_distance h
    exact ⟨slot, declNest, ty, nest, hfind, (Except.ok.inj h).symm⟩
  | constant value => cases h
  | routine index declNest => cases h

theorem callInstr_cases (h : l.callInstr ident = .ok i) :
    ∃ index declNest nest, l.Finds ident (.routine index declNest) nest ∧
      i = .call index (nest - declNest) := by
  obtain ⟨storage, nest, hfind, h⟩ := bind_find h
  cases storage with
  | routine index declNest =>
    obtain ⟨-, h⟩ := bind_distance h
    exact ⟨index, declNest, nest, hfind, (Except.ok.inj h).symm⟩
  | constant value => cases h
  | «variable» slot declNest ty => cases h

theorem readTy_cases {stmt : Token} {ty : Ty} (h : l.readTy ident stmt = .ok ty) :
    ∃ slot declNest nest, l.Finds ident (.variable slot declNest ty) nest := by
  obtain ⟨storage, nest, hfind, h⟩ := bind_find h
  cases storage with
  | «variable» slot declNest ty' =>
    cases h
    exact ⟨slot, declNest, nest, hfind⟩
  | constant value => cases h
  | routine index declNest => cases h

end Layout

/-! ## Expressions -/

theorem Expr.ty_of_demandTy {e : Expr} {ty : Ty} (h : e.demandTy = .ok ty) : e.ty = some ty := by
  unfold Expr.demandTy at h
  split at h
  · rename_i ty' hty
    cases h
    exact hty
  · cases h

namespace Expr

theorem code_literal {token : Token} {ty : Option Ty} {value : Value}
    (h : (Expr.literal token ty value).code l c = .ok (seg, c')) :
    [.push value] = seg ∧ c = c' := by
  obtain ⟨_, _, hty, h⟩ := of_bind h
  obtain ⟨-, rfl⟩ := of_lift hty
  exact of_pure h

theorem code_use {ident : Ident} {ty : Option Ty}
    (h : (Expr.use ident ty).code l c = .ok (seg, c')) :
    ∃ i, l.loadInstr ident = .ok i ∧ [i] = seg ∧ c = c' := by
  obtain ⟨_, _, hty, h⟩ := of_bind h
  obtain ⟨-, rfl⟩ := of_lift hty
  obtain ⟨i, _, hlift, h⟩ := of_bind h
  obtain ⟨hi, rfl⟩ := of_lift hlift
  exact ⟨i, hi, of_pure h⟩

theorem code_binary {token : Token} {ty : Option Ty} {op : Op} {lhs rhs : Expr}
    (h : (Expr.binary token ty op lhs rhs).code l c = .ok (seg, c')) :
    ∃ left right operation operand c₁ c₂, lhs.code l c = .ok (left, c₁) ∧
      rhs.code l c₁ = .ok (right, c₂) ∧ lhs.ty = some operand ∧
      op.code operand token.place.line c₂ = .ok (operation, c') ∧
      seg = left ++ (right ++ operation) := by
  obtain ⟨_, _, hty, h⟩ := of_bind h
  obtain ⟨-, rfl⟩ := of_lift hty
  obtain ⟨left, c₁, hl, h⟩ := of_bind h
  obtain ⟨right, c₂, hr, h⟩ := of_bind h
  obtain ⟨operand, _, hlift, h⟩ := of_bind h
  obtain ⟨hoperand, rfl⟩ := of_lift hlift
  obtain ⟨operation, _, hop, h⟩ := of_bind h
  obtain ⟨rfl, rfl⟩ := of_pure h
  exact ⟨left, right, operation, operand, c₁, _, hl, hr, ty_of_demandTy hoperand, hop, rfl⟩

theorem code_of_guardCode {e : Expr} (h : e.guardCode l c = .ok (seg, c')) :
    e.code l c = .ok (seg, c') := by
  obtain ⟨code, c₁, he, h⟩ := of_bind h
  obtain ⟨ty, _, hlift, h⟩ := of_bind h
  obtain ⟨-, rfl⟩ := of_lift hlift
  cases ty with
  | boolean =>
    obtain ⟨rfl, rfl⟩ := of_pure h
    exact he
  | _ => cases h

end Expr

theorem code_branch {branch : Label → Instr} (h : branchCode branch c = .ok (seg, c')) :
    [branch (.ofNat c), .push (.bool true), .goto (.ofNat (c + 1)), .label (.ofNat c),
      .push (.bool false), .label (.ofNat (c + 1))] = seg ∧ c + 2 = c' :=
  of_pure h

/-! ## Statements -/

namespace Stmt

variable {token : Token} {target : Ident} {expr guard : Expr} {body stmt : Stmt} {stmts : List Stmt}

theorem code_assign (h : (Stmt.assign target expr).code l c = .ok (seg, c')) :
    ∃ value i, expr.code l c = .ok (value, c') ∧ l.storeInstr target = .ok i ∧
      seg = value ++ [i] := by
  rw [Stmt.code] at h
  obtain ⟨value, c₁, he, h⟩ := of_bind h
  obtain ⟨i, _, hlift, h⟩ := of_bind h
  obtain ⟨hi, rfl⟩ := of_lift hlift
  obtain ⟨rfl, rfl⟩ := of_pure h
  exact ⟨value, i, he, hi, rfl⟩

theorem code_call (h : (Stmt.call token target).code l c = .ok (seg, c')) :
    ∃ i, l.callInstr target = .ok i ∧ [i] = seg ∧ c = c' := by
  rw [Stmt.code] at h
  obtain ⟨i, _, hlift, h⟩ := of_bind h
  obtain ⟨hi, rfl⟩ := of_lift hlift
  exact ⟨i, hi, of_pure h⟩

theorem code_input (h : (Stmt.input token target).code l c = .ok (seg, c')) :
    ∃ ty i, l.readTy target token = .ok ty ∧ l.storeInstr target = .ok i ∧ [.read ty, i] = seg ∧
      c = c' := by
  rw [Stmt.code] at h
  obtain ⟨ty, _, hlift, h⟩ := of_bind h
  obtain ⟨hty, rfl⟩ := of_lift hlift
  obtain ⟨i, _, hlift, h⟩ := of_bind h
  obtain ⟨hi, rfl⟩ := of_lift hlift
  exact ⟨ty, i, hty, hi, of_pure h⟩

theorem code_output (h : (Stmt.output token expr).code l c = .ok (seg, c')) :
    ∃ value ty, expr.code l c = .ok (value, c') ∧ expr.ty = some ty ∧
      seg = value ++ [.print ty] := by
  rw [Stmt.code] at h
  obtain ⟨value, c₁, he, h⟩ := of_bind h
  obtain ⟨ty, _, hlift, h⟩ := of_bind h
  obtain ⟨hty, rfl⟩ := of_lift hlift
  obtain ⟨rfl, rfl⟩ := of_pure h
  exact ⟨value, ty, he, Expr.ty_of_demandTy hty, rfl⟩

theorem code_if (h : (Stmt.if token guard body).code l c = .ok (seg, c')) :
    ∃ test run c₁, guard.code l (c + 1) = .ok (test, c₁) ∧ body.code l c₁ = .ok (run, c') ∧
      seg = test ++ [.ifBool false (.ofNat c)] ++ run ++ [.label (.ofNat c)] := by
  rw [Stmt.code] at h
  obtain ⟨join, _, hjoin, h⟩ := of_bind h
  obtain ⟨rfl, rfl⟩ := of_freshLabel hjoin
  obtain ⟨test, c₁, htest, h⟩ := of_bind h
  obtain ⟨run, c₂, hrun, h⟩ := of_bind h
  obtain ⟨rfl, rfl⟩ := of_pure h
  exact ⟨test, run, c₁, Expr.code_of_guardCode htest, hrun, rfl⟩

theorem code_while (h : (Stmt.while token guard body).code l c = .ok (seg, c')) :
    ∃ run test c₁, body.code l (c + 2) = .ok (run, c₁) ∧ guard.code l c₁ = .ok (test, c') ∧
      seg = [.goto (.ofNat (c + 1)), .label (.ofNat c)] ++ run ++
        [.label (.ofNat (c + 1))] ++ test ++ [.ifBool true (.ofNat c)] := by
  rw [Stmt.code] at h
  obtain ⟨start, _, hstart, h⟩ := of_bind h
  obtain ⟨rfl, rfl⟩ := of_freshLabel hstart
  obtain ⟨check, _, hcheck, h⟩ := of_bind h
  obtain ⟨rfl, rfl⟩ := of_freshLabel hcheck
  obtain ⟨run, c₁, hrun, h⟩ := of_bind h
  obtain ⟨test, c₂, htest, h⟩ := of_bind h
  obtain ⟨rfl, rfl⟩ := of_pure h
  exact ⟨run, test, c₁, hrun, Expr.code_of_guardCode htest, rfl⟩

theorem codeList_cons (h : Stmt.codeList l (stmt :: stmts) c = .ok (seg, c')) :
    ∃ first rest c₁, stmt.code l c = .ok (first, c₁) ∧
      Stmt.codeList l stmts c₁ = .ok (rest, c') ∧ seg = first ++ rest := by
  rw [Stmt.codeList] at h
  obtain ⟨first, c₁, hs, h⟩ := of_bind h
  obtain ⟨rest, c₂, hss, h⟩ := of_bind h
  obtain ⟨rfl, rfl⟩ := of_pure h
  exact ⟨first, rest, c₁, hs, hss, rfl⟩

end Stmt

/-! ## Routines

The code of the routines can be listed as it is made, and put together with the frames at the end.
-/

mutual

/-- The code of the routines of a procedure, those nested in it first, with their indices. -/
def Decl.codes (l : Layout) : Decl → Emit (List (Nat × List Instr))
  | .procedure head decls stmt =>
    match l.get? head.id with
    | some (.routine index _) => do
      let nested ← Decl.codesList l decls
      return nested ++ [(index, (← stmt.code l) ++ [.ret])]
    | _ => throw (.noRoutine head.token)
  | _ => return []

def Decl.codesList (l : Layout) : List Decl → Emit (List (Nat × List Instr))
  | [] => return []
  | d :: ds => do
    let first ← d.codes l
    return first ++ (← Decl.codesList l ds)

end

/-- The code of all routines, in the order in which it is made. -/
def Program.codes (p : Program) (l : Layout) : Emit (List (Nat × List Instr)) := do
  let nested ← Decl.codesList l p.block.decls
  return nested ++ [(0, (← p.block.stmt.code l) ++ [.ret])]

/-- Puts frames and code together.  If code was made twice for an index, the later one counts. -/
def assemble (emitted : List (Nat × List Instr)) :
    (index : Nat) → List Frame → Except CodeFault (List Routine)
  | _, [] => .ok []
  | index, frame :: frames =>
    match emitted.reverse.lookup index with
    | none => .error (.neverGenerated index)
    | some code => do return ⟨frame.name, frame.locals, code⟩ :: (← assemble emitted (index + 1) frames)

namespace Decl

variable {es : List (Nat × List Instr)}

theorem codes_procedure {head : DeclHead} {decls : List Decl} {stmt : Stmt}
    (h : (Decl.procedure head decls stmt).codes l c = .ok (es, c')) :
    ∃ index nest nested seg c₁, l.get? head.id = some (.routine index nest) ∧
      Decl.codesList l decls c = .ok (nested, c₁) ∧ stmt.code l c₁ = .ok (seg, c') ∧
      nested ++ [(index, seg ++ [.ret])] = es := by
  rw [Decl.codes] at h
  cases hget : l.get? head.id with
  | none =>
    rw [hget] at h
    cases h
  | some storage =>
    rw [hget] at h
    cases storage with
    | routine index nest =>
      obtain ⟨nested, c₁, hnested, h⟩ := of_bind h
      obtain ⟨seg, c₂, hcode, h⟩ := of_bind h
      obtain ⟨rfl, rfl⟩ := of_pure h
      exact ⟨index, nest, nested, seg, c₁, rfl, hnested, hcode, rfl⟩
    | constant value => cases h
    | «variable» slot declNest ty => cases h

theorem codesList_cons {d : Decl} {ds : List Decl}
    (h : Decl.codesList l (d :: ds) c = .ok (es, c')) :
    ∃ first rest c₁, d.codes l c = .ok (first, c₁) ∧
      Decl.codesList l ds c₁ = .ok (rest, c') ∧ first ++ rest = es := by
  rw [Decl.codesList] at h
  obtain ⟨first, c₁, hd, h⟩ := of_bind h
  obtain ⟨rest, c₂, hds, h⟩ := of_bind h
  obtain ⟨rfl, rfl⟩ := of_pure h
  exact ⟨first, rest, c₁, hd, hds, rfl⟩

end Decl

theorem Program.codes_eq {p : Program} {es : List (Nat × List Instr)}
    (h : p.codes l c = .ok (es, c')) :
    ∃ nested seg c₁, Decl.codesList l p.block.decls c = .ok (nested, c₁) ∧
      p.block.stmt.code l c₁ = .ok (seg, c') ∧ nested ++ [(0, seg ++ [.ret])] = es := by
  obtain ⟨nested, c₁, hnested, h⟩ := of_bind h
  obtain ⟨seg, c₂, hcode, h⟩ := of_bind h
  obtain ⟨rfl, rfl⟩ := of_pure h
  exact ⟨nested, seg, c₁, hnested, hcode, rfl⟩

/-- Each routine has its frame and the code under its index. -/
theorem getElem?_assemble {es : List (Nat × List Instr)} {frames : List Frame} :
    ∀ {index : Nat} {rs : List Routine}, assemble es index frames = .ok rs →
      rs.length = frames.length ∧ ∀ (k : Nat) (frame : Frame), frames[k]? = some frame →
        ∃ code, es.reverse.lookup (index + k) = some code ∧
          rs[k]? = some ⟨frame.name, frame.locals, code⟩ := by
  induction frames with
  | nil =>
    intro index rs h
    cases h
    exact ⟨rfl, by simp⟩
  | cons frame frames ih =>
    intro index rs h
    rw [assemble] at h
    cases hlookup : es.reverse.lookup index with
    | none =>
      rw [hlookup] at h
      cases h
    | some code =>
      rw [hlookup] at h
      obtain ⟨rest, hrest, h⟩ := exists_of_bind_ok h
      cases h
      obtain ⟨hlength, hget⟩ := ih hrest
      refine ⟨congrArg (· + 1) hlength, fun k frame' hk => ?_⟩
      cases k with
      | zero =>
        cases hk
        exact ⟨code, hlookup, rfl⟩
      | succ k =>
        rw [show index + (k + 1) = index + 1 + k from by omega]
        exact hget k frame' hk

end PLZero
