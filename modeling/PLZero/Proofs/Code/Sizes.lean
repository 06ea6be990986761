import PLZero.Proofs.Code.Assembly
import PLZero.Proofs.Code.Codec
import PLZero.Proofs.Scope.Bound
import PLZero.Proofs.Tree.Size

/-!
# Sizes of code

How big the code of a program can be, by the size of its tree.

* `Layout.Small` — the places of declarations, the frames and their names are small.
* `Compact` — a piece of code has no more than so many instructions, and all of them are small.
* `Program.small_layout`, `Program.compact_codes` — the layout of a program is small, and its
  code has no more than eight instructions for each unit of size.
* `Program.small_generate` — so the unit of a program is small.

The operand that counts static links is small since a name is used no deeper than there are
procedures around it, and each of those has a head.
-/

namespace PLZero

/-! ## Layouts -/

def Storage.Small (n : Nat) : Storage → Prop
  | .constant value => value.size ≤ n + 1
  | .variable slot _ _ => slot ≤ n
  | .routine index _ => index ≤ n

/-- The frame of the program has a name of its own, of four bytes. -/
structure Frame.Small (n : Nat) (frame : Frame) : Prop where
  name : frame.name.utf8ByteSize ≤ n + 4
  locals : frame.locals.length ≤ n

structure Layout.Small (n : Nat) (l : Layout) : Prop where
  size : l.frames.size ≤ n + 1
  frames : ∀ (i : Nat) (frame : Frame), l.frames[i]? = some frame → frame.Small n
  entries : ∀ entry ∈ l.entries, entry.2.Small n

theorem Storage.Small.mono {n m : Nat} {storage : Storage} (h : storage.Small n) (hle : n ≤ m) :
    storage.Small m := by
  cases storage <;> simp only [Storage.Small] at h ⊢ <;> omega

theorem Frame.Small.mono {n m : Nat} {frame : Frame} (h : frame.Small n) (hle : n ≤ m) :
    frame.Small m :=
  ⟨Nat.le_trans h.name (by omega), Nat.le_trans h.locals hle⟩

namespace Layout

variable {l l' : Layout} {n m r : Nat} {d : Decl} {ds : List Decl}

theorem Small.mono (h : l.Small n) (hle : n ≤ m) : l.Small m :=
  ⟨Nat.le_trans h.size (by omega), fun i frame hi => (h.frames i frame hi).mono hle,
    fun entry he => (h.entries entry he).mono hle⟩

theorem Small.get? {id : Nat} {storage : Storage} (h : l.Small n)
    (hget : l.get? id = some storage) : storage.Small n :=
  h.entries _ (mem_of_get? hget)

theorem small_empty : empty.Small 0 := by
  refine ⟨by decide, fun i frame hi => ?_, by simp [empty]⟩
  cases i with
  | zero =>
    cases hi
    exact ⟨by decide, by decide⟩
  | succ i => simp [empty] at hi

/-- The name of a routine is longer than that of the routine around it by its own and a dot. -/
theorem Small.routineName (h : l.Small n) (name : String) :
    (l.routineName r name).utf8ByteSize ≤ n + name.utf8ByteSize + 5 := by
  unfold Layout.routineName
  split
  · omega
  · split
    · rename_i frame hframe
      have hname := (h.frames r frame hframe).name
      have hdot : ".".utf8ByteSize = 1 := by decide
      simp only [toString, String.utf8ByteSize_append, hdot]
      omega
    · omega

theorem small_add (h : l.Small n) (hadd : add r l d = .ok l') : l'.Small (n + d.headSize) := by
  have hmono := h.mono (Nat.le_add_right n d.headSize)
  obtain ⟨storage, frames, hadded, rfl⟩ := added_of_add hadd
  cases hadded with
  | const head value =>
    refine ⟨hmono.size, hmono.frames, List.forall_mem_cons.mpr ⟨?_, hmono.entries⟩⟩
    simp only [Storage.Small, Decl.headSize]
    omega
  | @var head nest ty _ _ =>
    have hhead := head.one_le_size
    refine ⟨by simpa using hmono.size, fun i frame hi => ?_,
      List.forall_mem_cons.mpr ⟨?_, hmono.entries⟩⟩
    · rw [Array.getElem?_modify] at hi
      split at hi
      · obtain ⟨old, hold, rfl⟩ := Option.map_eq_some_iff.mp hi
        have hsmall := h.frames i old hold
        refine ⟨(hmono.frames i old hold).name, ?_⟩
        have := hsmall.locals
        simp only [List.length_append, List.length_singleton, Decl.headSize]
        omega
      · exact hmono.frames i frame hi
    · simp only [Storage.Small]
      cases hframe : l.frames[r]? with
      | none => exact Nat.zero_le _
      | some frame => exact (hmono.frames r frame hframe).locals
  | @procedure head nest decls stmt _ =>
    have hhead := head.one_le_size
    have hsize := h.size
    simp only [Decl.headSize] at hmono ⊢
    refine ⟨?_, fun i frame hi => ?_, List.forall_mem_cons.mpr ⟨?_, hmono.entries⟩⟩
    · rw [Array.size_push]
      omega
    · rw [Array.getElem?_push] at hi
      split at hi
      · cases hi
        have hname := h.routineName (r := r) head.name
        have hown : head.name.utf8ByteSize ≤ head.size := Nat.le_max_right ..
        exact ⟨by simp only; omega, Nat.zero_le _⟩
      · exact hmono.frames i frame hi
    · simp only [Storage.Small]
      omega

theorem small_foldlM (h : l.Small n) (hfold : ds.foldlM (add r) l = .ok l') :
    l'.Small (n + (ds.map Decl.headSize).sum) := by
  induction ds generalizing l n with
  | nil =>
    cases hfold
    exact h
  | cons d ds ih =>
    obtain ⟨l₁, hadd, hrest⟩ := foldlM_cons hfold
    rw [List.map_cons, List.sum_cons, ← Nat.add_assoc]
    exact ih (small_add h hadd) hrest

end Layout

mutual

theorem Decl.small_layOut : (d : Decl) → ∀ {l l' : Layout} {n : Nat}, l.Small n →
    d.layOut l = .ok l' → l'.Small (n + d.bodySize)
  | .const .., _, _, _, h, hlay | .var _, _, _, _, h, hlay => by
    cases hlay
    exact h
  | .procedure head decls stmt, l, l', n, h, hlay => by
    have hkeep := h.mono (Nat.le_add_right n (Decl.procedure head decls stmt).bodySize)
    cases hget : l.get? head.id with
    | none =>
      simp only [Decl.layOut, hget] at hlay
      cases hlay
      exact hkeep
    | some storage =>
      cases storage with
      | routine index nest =>
        obtain ⟨l₁, hfold, hlist⟩ := Decl.layOut_procedure hlay hget
        have hsmall := Decl.small_layOutList decls (Layout.small_foldlM h hfold) hlist
        refine hsmall.mono ?_
        rw [Decl.bodySize, Decl.sizeList_eq]
        omega
      | constant | «variable» =>
        simp only [Decl.layOut, hget] at hlay
        cases hlay
        exact hkeep

theorem Decl.small_layOutList : (ds : List Decl) → ∀ {l l' : Layout} {n : Nat}, l.Small n →
    Decl.layOutList l ds = .ok l' → l'.Small (n + (ds.map Decl.bodySize).sum)
  | [], _, _, _, h, hlay => by
    cases hlay
    exact h
  | d :: ds, _, _, _, h, hlay => by
    obtain ⟨l₁, hd, hds⟩ := Decl.layOutList_cons hlay
    rw [List.map_cons, List.sum_cons, ← Nat.add_assoc]
    exact Decl.small_layOutList ds (Decl.small_layOut d h hd) hds

end

/-- **The layout of a program is no bigger than the program.** -/
theorem Program.small_layout {p : Program} {l : Layout} (h : p.layout = .ok l) :
    l.Small p.size := by
  obtain ⟨l₁, hfold, hlist⟩ := exists_of_bind_ok h
  have hsmall := Decl.small_layOutList _ (Layout.small_foldlM Layout.small_empty hfold) hlist
  refine hsmall.mono ?_
  rw [Program.size, Block.size, Decl.sizeList_eq]
  omega

/-! ## Instructions -/

def Instr.Small (n : Nat) : Instr → Prop
  | .push value => value.size ≤ n + 1
  | .load up slot | .store up slot => up ≤ n ∧ slot ≤ n
  | .call routine up => routine ≤ n ∧ up ≤ n
  | _ => True

theorem Instr.Small.indices {n : Nat} {i : Instr} (h : i.Small n) : ∀ k ∈ i.indices, k ≤ n := by
  cases i <;> simp_all [Instr.Small, Instr.indices]

section Names

variable {l : Layout} {Δ : Scopes} {ident : Ident} {i : Instr} {n : Nat} (hl : l.Small n)
  (hΔ : Δ.length ≤ n + 1) (hident : ident.Bound Δ)

include hl hΔ hident

theorem Layout.Finds.small {storage : Storage} {nest : Nat} (h : l.Finds ident storage nest) :
    storage.Small n ∧ nest ≤ n := by
  obtain ⟨hdepth, id, -, hid, -, -⟩ := hident
  refine ⟨hl.get? (h.get? id hid), ?_⟩
  rw [AtDepth, h.nest, Option.map_some, Option.some.injEq] at hdepth
  omega

theorem Layout.small_loadInstr (h : l.loadInstr ident = .ok i) : i.Small n := by
  rcases Layout.loadInstr_cases h with ⟨value, nest, hfind, rfl⟩ |
    ⟨slot, declNest, ty, nest, hfind, rfl⟩
  · exact (hfind.small hl hΔ hident).1
  · obtain ⟨hslot, hnest⟩ := hfind.small hl hΔ hident
    exact ⟨by omega, hslot⟩

theorem Layout.small_storeInstr (h : l.storeInstr ident = .ok i) : i.Small n := by
  obtain ⟨slot, declNest, ty, nest, hfind, rfl⟩ := Layout.storeInstr_cases h
  obtain ⟨hslot, hnest⟩ := hfind.small hl hΔ hident
  exact ⟨by omega, hslot⟩

theorem Layout.small_callInstr (h : l.callInstr ident = .ok i) : i.Small n := by
  obtain ⟨index, declNest, nest, hfind, rfl⟩ := Layout.callInstr_cases h
  obtain ⟨hindex, hnest⟩ := hfind.small hl hΔ hident
  exact ⟨hindex, by omega⟩

end Names

/-! ## Code -/

/-- No more than `k` instructions, all of them small. -/
structure Compact (n : Nat) (code : List Instr) (k : Nat) : Prop where
  length : code.length ≤ k
  small : ∀ i ∈ code, i.Small n

namespace Compact

variable {n k k' : Nat} {code code' : List Instr}

theorem nil (n : Nat) : Compact n [] 0 := ⟨Nat.le_refl _, by simp⟩

theorem one {i : Instr} (h : i.Small n) : Compact n [i] 1 := ⟨Nat.le_refl _, by simpa using h⟩

theorem append (h : Compact n code k) (h' : Compact n code' k') :
    Compact n (code ++ code') (k + k') := by
  refine ⟨?_, List.forall_mem_append.mpr ⟨h.small, h'.small⟩⟩
  have := h.length
  have := h'.length
  rw [List.length_append]
  omega

theorem mono (h : Compact n code k) (hle : k ≤ k') : Compact n code k' :=
  ⟨Nat.le_trans h.length hle, h.small⟩

theorem subperm (h : Compact n code k) (hsub : code'.Subperm code) : Compact n code' k :=
  ⟨Nat.le_trans hsub.length_le h.length, fun i hi => h.small i (hsub.subset hi)⟩

end Compact

section Code

variable {l : Layout} {Δ : Scopes} {n : Nat}

theorem compact_branchCode {branch : Label → Instr} {c c' : Nat} {seg : List Instr}
    (h : branchCode branch c = .ok (seg, c')) (hbranch : ∀ label, (branch label).Small n) :
    Compact n seg 8 := by
  obtain ⟨rfl, -⟩ := code_branch h
  refine ⟨by simp, List.forall_mem_cons.mpr ⟨hbranch _, ?_⟩⟩
  simp [Instr.Small, Value.size]

theorem Op.compact_code {op : Op} {operand : Ty} {line c c' : Nat} {seg : List Instr}
    (h : op.code operand line c = .ok (seg, c')) : Compact n seg 8 := by
  cases op with
  | arith a =>
    cases a <;> cases operand <;> cases h <;>
      exact ⟨by simp, by simp [Instr.Small]⟩
  | compare cond =>
    cases operand with
    | procedure => cases h
    | number | boolean => exact compact_branchCode h fun _ => trivial
    | string =>
      cases cond with
      | eq | ne => exact compact_branchCode h fun _ => trivial
      | lt | le | gt | ge =>
        cases h
        exact ⟨by simp [strictCode], by simp [strictCode, Instr.Small]⟩

theorem Expr.compact_code (hl : l.Small n) (hΔ : Δ.length ≤ n + 1) (e : Expr) :
    ∀ {c c' : Nat} {seg : List Instr}, e.code l c = .ok (seg, c') → e.Bound Δ → e.size ≤ n →
      Compact n seg (8 * e.size) := by
  induction e with
  | literal token ty value =>
    intro c c' seg h _ hsize
    obtain ⟨rfl, -⟩ := Expr.code_literal h
    have hvalue : 1 ≤ value.size := by cases value <;> simp [Value.size]
    refine (Compact.one ?_).mono (by rw [Expr.size]; omega)
    rw [Instr.Small]
    exact Nat.le_succ_of_le hsize
  | use ident ty =>
    intro c c' seg h hbound _
    obtain ⟨i, hi, rfl, -⟩ := Expr.code_use h
    exact (Compact.one (Layout.small_loadInstr hl hΔ hbound hi)).mono (by rw [Expr.size]; omega)
  | binary token ty op lhs rhs ihl ihr =>
    intro c c' seg h hbound hsize
    obtain ⟨left, right, operation, operand, c₁, c₂, hleft, hright, -, hop, rfl⟩ :=
      Expr.code_binary h
    rw [Expr.size] at hsize
    have hcompact := (ihl hleft hbound.1 (by omega)).append
      ((ihr hright hbound.2 (by omega)).append (Op.compact_code hop))
    exact hcompact.mono (by rw [Expr.size]; omega)

mutual

theorem Stmt.compact_code (hl : l.Small n) (hΔ : Δ.length ≤ n + 1) : (stmt : Stmt) →
    ∀ {c c' : Nat} {seg : List Instr}, stmt.code l c = .ok (seg, c') → stmt.Bound Δ →
      stmt.size ≤ n → Compact n seg (8 * stmt.size)
  | .assign target expr, c, c', seg, h, hbound, hsize => by
    obtain ⟨value, i, hvalue, hi, rfl⟩ := Stmt.code_assign h
    rw [Stmt.size] at hsize
    have hcompact := (expr.compact_code hl hΔ hvalue hbound.2 (by omega)).append
      (.one (Layout.small_storeInstr hl hΔ hbound.1 hi))
    exact hcompact.mono (by rw [Stmt.size]; omega)
  | .call token target, c, c', seg, h, hbound, _ => by
    obtain ⟨i, hi, rfl, -⟩ := Stmt.code_call h
    exact (Compact.one (Layout.small_callInstr hl hΔ hbound hi)).mono (by rw [Stmt.size]; omega)
  | .input token target, c, c', seg, h, hbound, _ => by
    obtain ⟨ty, i, -, hi, rfl, -⟩ := Stmt.code_input h
    have hread : Compact n [.read ty] 1 := .one trivial
    have hcompact := hread.append (.one (Layout.small_storeInstr hl hΔ hbound hi))
    exact hcompact.mono (by rw [Stmt.size]; omega)
  | .output token expr, c, c', seg, h, hbound, hsize => by
    obtain ⟨value, ty, hvalue, -, rfl⟩ := Stmt.code_output h
    rw [Stmt.size] at hsize
    have hprint : Compact n [.print ty] 1 := .one trivial
    have hcompact := (expr.compact_code hl hΔ hvalue hbound (by omega)).append hprint
    exact hcompact.mono (by rw [Stmt.size]; omega)
  | .begin token stmts, c, c', seg, h, hbound, hsize =>
    Stmt.compact_codeList hl hΔ stmts h hbound hsize
  | .if token guard body, c, c', seg, h, hbound, hsize => by
    obtain ⟨test, run, c₁, htest, hrun, rfl⟩ := Stmt.code_if h
    rw [Stmt.size] at hsize
    have htest := guard.compact_code hl hΔ htest hbound.1 (by omega)
    have hrun := Stmt.compact_code hl hΔ body hrun hbound.2 (by omega)
    have hjump : Compact n [.ifBool false (.ofNat c)] 1 := .one trivial
    have hjoin : Compact n [.label (.ofNat c)] 1 := .one trivial
    exact (((htest.append hjump).append hrun).append hjoin).mono (by rw [Stmt.size]; omega)
  | .while token guard body, c, c', seg, h, hbound, hsize => by
    obtain ⟨run, test, c₁, hrun, htest, rfl⟩ := Stmt.code_while h
    rw [Stmt.size] at hsize
    have hrun := Stmt.compact_code hl hΔ body hrun hbound.2 (by omega)
    have htest := guard.compact_code hl hΔ htest hbound.1 (by omega)
    have hstart : Compact n [.goto (.ofNat (c + 1)), .label (.ofNat c)] 2 :=
      ⟨Nat.le_refl _, by simp [Instr.Small]⟩
    have hcheck : Compact n [.label (.ofNat (c + 1))] 1 := .one trivial
    have hjump : Compact n [.ifBool true (.ofNat c)] 1 := .one trivial
    exact ((((hstart.append hrun).append hcheck).append htest).append hjump).mono
      (by rw [Stmt.size]; omega)
  | .empty token, c, c', seg, h, _, _ => by
    obtain ⟨rfl, -⟩ := Emit.of_pure h
    exact .nil n

theorem Stmt.compact_codeList (hl : l.Small n) (hΔ : Δ.length ≤ n + 1) : (stmts : List Stmt) →
    ∀ {c c' : Nat} {seg : List Instr}, Stmt.codeList l stmts c = .ok (seg, c') →
      Stmt.BoundList Δ stmts → Stmt.sizeList stmts ≤ n →
      Compact n seg (8 * Stmt.sizeList stmts)
  | [], c, c', seg, h, _, _ => by
    obtain ⟨rfl, -⟩ := Emit.of_pure h
    exact .nil n
  | stmt :: stmts, c, c', seg, h, hbound, hsize => by
    obtain ⟨first, rest, c₁, hfirst, hrest, rfl⟩ := Stmt.codeList_cons h
    rw [Stmt.sizeList] at hsize
    rw [Stmt.sizeList, Nat.mul_add]
    exact (Stmt.compact_code hl hΔ stmt hfirst hbound.1 (by omega)).append
      (Stmt.compact_codeList hl hΔ stmts hrest hbound.2 (by omega))

end

/-! ## Routines -/

mutual

theorem Decl.compact_codes (hl : l.Small n) : (d : Decl) → ∀ {Δ : Scopes} {c c' : Nat}
    {es : List (Nat × List Instr)}, d.codes l c = .ok (es, c') → d.Bound Δ →
      Δ.length + (d.headSize + d.bodySize) ≤ n + 1 →
      Compact n (es.flatMap Prod.snd) (8 * (d.headSize + d.bodySize))
  | .const .., _, _, _, _, h, _, _ | .var _, _, _, _, _, h, _, _ => by
    obtain ⟨rfl, -⟩ := Emit.of_pure h
    exact (Compact.nil n).mono (Nat.zero_le _)
  | .procedure head decls stmt, Δ, c, c', es, h, hbound, hsize => by
    obtain ⟨index, nest, nested, seg, c₁, -, hnested, hseg, rfl⟩ := Decl.codes_procedure h
    have hhead := head.one_le_size
    rw [Decl.headSize, Decl.bodySize] at hsize ⊢
    have hΔ : (Decl.ids decls :: Δ).length + Decl.sizeList decls + stmt.size ≤ n + 1 := by
      rw [List.length_cons]
      omega
    have hdecls := Decl.compact_codesList hl decls hnested hbound.2.1 (by omega)
    have hstmt := stmt.compact_code hl (by omega) hseg hbound.2.2 (by omega)
    have hret : Compact n [.ret] 1 := .one trivial
    rw [List.flatMap_append, List.flatMap_singleton]
    exact (hdecls.append (hstmt.append hret)).mono (by omega)

theorem Decl.compact_codesList (hl : l.Small n) : (ds : List Decl) → ∀ {Δ : Scopes} {c c' : Nat}
    {es : List (Nat × List Instr)}, Decl.codesList l ds c = .ok (es, c') →
      Decl.BoundList Δ ds → Δ.length + Decl.sizeList ds ≤ n + 1 →
      Compact n (es.flatMap Prod.snd) (8 * Decl.sizeList ds)
  | [], _, _, _, _, h, _, _ => by
    obtain ⟨rfl, -⟩ := Emit.of_pure h
    exact .nil n
  | d :: ds, Δ, c, c', es, h, hbound, hsize => by
    obtain ⟨first, rest, c₁, hfirst, hrest, rfl⟩ := Decl.codesList_cons h
    rw [Decl.sizeList] at hsize
    rw [List.flatMap_append, Decl.sizeList, Nat.mul_add]
    exact (Decl.compact_codes hl d hfirst hbound.1 (by omega)).append
      (Decl.compact_codesList hl ds hrest hbound.2 (by omega))

end

end Code

/-- All code of a program together. -/
theorem Program.compact_codes {p : Program} {l : Layout} {es : List (Nat × List Instr)}
    {c c' : Nat} (hl : l.Small p.size) (hbound : p.Bound) (h : p.codes l c = .ok (es, c')) :
    Compact p.size (es.flatMap Prod.snd) (8 * p.size + 1) := by
  obtain ⟨nested, seg, c₁, hnested, hseg, rfl⟩ := Program.codes_eq h
  have hsize : p.size = Decl.sizeList p.block.decls + p.block.stmt.size := rfl
  have hdecls := Decl.compact_codesList hl p.block.decls hnested hbound.decls (by simp; omega)
  have hstmt := p.block.stmt.compact_code hl (by simp) hseg hbound.stmt (by omega)
  have hret : Compact p.size [.ret] 1 := .one trivial
  rw [List.flatMap_append, List.flatMap_singleton]
  exact (hdecls.append (hstmt.append hret)).mono (by omega)

/-! ## Units -/

structure CodeUnit.Small (n : Nat) (u : CodeUnit) : Prop where
  count : u.routines.length ≤ n + 1
  frames : ∀ r ∈ u.routines, (⟨r.name, r.locals⟩ : Frame).Small n
  code : Compact n (u.routines.flatMap Routine.code) (8 * n + 1)

/-- **A unit is no bigger than its program.** -/
theorem Program.small_generate {p : Program} {name : String} {u : CodeUnit} (hbound : p.Bound)
    (hnodup : (Decl.ids p.declarations).Nodup) (h : p.generate name = .ok u) : u.Small p.size := by
  obtain ⟨l, es, c, hl, hes, -, hall, hassemble⟩ := Program.assembled_of_generate h hnodup
  have hsmall := Program.small_layout hl
  obtain ⟨hlength, hget⟩ := getElem?_assemble hassemble
  refine ⟨?_, fun r hr => ?_, ?_⟩
  · rw [hlength, Array.length_toList]
    exact hsmall.size
  · obtain ⟨k, hk⟩ := List.mem_iff_getElem?.mp hr
    have hlt := (List.getElem?_eq_some_iff.mp hk).1
    obtain ⟨frame, hframe⟩ : ∃ frame, l.frames.toList[k]? = some frame :=
      ⟨_, List.getElem?_eq_getElem (hlength ▸ hlt)⟩
    obtain ⟨code, -, hr'⟩ := hget k frame hframe
    obtain rfl : r = _ := Option.some.inj (hk.symm.trans hr')
    exact hsmall.frames k frame (by simpa using hframe)
  · exact (Program.compact_codes hsmall hbound hes).subperm (hall.perm hassemble).symm.subperm

namespace CodeUnit.Small

variable {u : CodeUnit} {n : Nat}

theorem routine (h : u.Small n) {r : Routine} (hr : r ∈ u.routines) :
    Compact n r.code (8 * n + 1) :=
  h.code.subperm (List.sublist_flatten_of_mem (List.mem_map_of_mem hr)).subperm

theorem sized (h : u.Small n) (hn : n < 2 ^ 28) (hname : u.name.utf8ByteSize < 2 ^ 32) :
    u.Sized := by
  refine ⟨hname, Nat.lt_of_le_of_lt h.count (by omega), fun r hr => ?_⟩
  have hframe := h.frames r hr
  have hcode := h.routine hr
  refine ⟨Nat.lt_of_le_of_lt hframe.name (by omega), Nat.lt_of_le_of_lt hframe.locals (by omega),
    Nat.lt_of_le_of_lt hcode.length (by omega), fun s hs => ?_⟩
  have htext : s.utf8ByteSize + 1 ≤ n + 1 := hcode.small _ hs
  omega

theorem le_of_mem_indices (h : u.Small n) : ∀ k ∈ u.indices, k ≤ n := by
  intro k hk
  obtain ⟨r, hr, hk⟩ := List.mem_flatMap.mp hk
  obtain ⟨i, hi, hk⟩ := List.mem_flatMap.mp hk
  exact ((h.routine hr).small i hi).indices k hk

theorem labelCount_le (h : u.Small n) : u.labelCount ≤ 8 * n + 1 :=
  Nat.le_trans List.countP_le_length h.code.length

end CodeUnit.Small

end PLZero
