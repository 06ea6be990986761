import Mathlib.Data.List.Perm.Subperm
import PLZero.Proofs.Simulation.Names

/-!
# Code for every program

Code can be made for every program that is bound, typed and numbered.

* `Program.exists_layout` — every declaration can be placed, as it has a depth and a type.
* `Nested.exists_find` — every name has a place of the kind that the types ask for, and is declared
  no deeper than it is used.
* `Emit.Total` — making code for a part never fails, whatever the number of the next label.
* `Program.exists_generate` — a unit is made.  No frame is left without code: there are no more
  frames than procedures and the program, and code has been made for as many different indices.
-/

namespace PLZero

/-! ## Places for declarations -/

namespace Layout

variable {l l' : Layout} {r : Nat}

/-- What a declaration must have to be placed. -/
def Placeable (d : Decl) : Prop := (∃ nest, d.head.nest = some nest) ∧ ∃ ty, d.head.ty = some ty

theorem exists_add {d : Decl} (h : Placeable d) : ∃ l', add r l d = .ok l' := by
  obtain ⟨⟨nest, hnest⟩, ty, hty⟩ := h
  simp only [add, hnest]
  cases d with
  | const | procedure => exact ⟨_, rfl⟩
  | var head =>
    simp only [show head.ty = some ty from hty]
    exact ⟨_, rfl⟩

theorem exists_foldlM {ds : List Decl} (h : ∀ d ∈ ds, Placeable d) :
    ∃ l', ds.foldlM (add r) l = .ok l' := by
  induction ds generalizing l with
  | nil => exact ⟨l, rfl⟩
  | cons d ds ih =>
    rw [List.forall_mem_cons] at h
    obtain ⟨l₁, hadd⟩ := exists_add (r := r) (l := l) h.1
    rw [List.foldlM_cons, hadd]
    exact ih h.2

end Layout

open Layout (Placeable)

mutual

theorem Decl.exists_layOut : (d : Decl) → (∀ x ∈ d.subtree, Placeable x) → ∀ l : Layout,
    ∃ l', d.layOut l = .ok l'
  | .const .., _, l | .var _, _, l => ⟨l, rfl⟩
  | .procedure head decls stmt, h, l => by
    rw [Decl.subtree, List.forall_mem_cons] at h
    rw [Decl.layOut]
    split
    · rename_i index _ _
      obtain ⟨l₁, hfold⟩ := Layout.exists_foldlM (r := index) (l := l) fun d hd =>
        h.2 d (Decl.mem_subtrees hd)
      rw [hfold]
      exact Decl.exists_layOutList decls h.2 l₁
    · exact ⟨l, rfl⟩

theorem Decl.exists_layOutList : (ds : List Decl) → (∀ x ∈ Decl.subtrees ds, Placeable x) →
    ∀ l : Layout, ∃ l', Decl.layOutList l ds = .ok l'
  | [], _, l => ⟨l, rfl⟩
  | d :: ds, h, l => by
    rw [Decl.subtrees, List.forall_mem_append] at h
    obtain ⟨l₁, hd⟩ := Decl.exists_layOut d h.1 l
    rw [Decl.layOutList, hd]
    exact Decl.exists_layOutList ds h.2 l₁

end

mutual

theorem Decl.Bound.exists_nest {Δ : Scopes} : (d : Decl) → d.Bound Δ →
    ∀ x ∈ d.subtree, ∃ nest, x.head.nest = some nest
  | .const .., h, x, hx | .var _, h, x, hx => by
    obtain ⟨nest, hnest, -⟩ := Option.map_eq_some_iff.mp h
    rw [List.mem_singleton.mp hx]
    exact ⟨nest, hnest⟩
  | .procedure head decls stmt, h, x, hx => by
    rw [Decl.subtree, List.mem_cons] at hx
    rcases hx with rfl | hx
    · obtain ⟨nest, hnest, -⟩ := Option.map_eq_some_iff.mp h.1
      exact ⟨nest, hnest⟩
    · exact Decl.BoundList.exists_nest decls h.2.1 x hx

theorem Decl.BoundList.exists_nest {Δ : Scopes} : (ds : List Decl) → Decl.BoundList Δ ds →
    ∀ x ∈ Decl.subtrees ds, ∃ nest, x.head.nest = some nest
  | [], _, x, hx => by simp [Decl.subtrees] at hx
  | d :: ds, h, x, hx => by
    rw [Decl.subtrees, List.mem_append] at hx
    rcases hx with hx | hx
    · exact Decl.Bound.exists_nest d h.1 x hx
    · exact Decl.BoundList.exists_nest ds h.2 x hx

end

theorem Program.exists_layout {p : Program} {T : OpTable} (hbound : p.Bound)
    (htyped : p.WellTyped T) : ∃ l, p.layout = .ok l := by
  have hplaceable : ∀ d ∈ p.declarations, Placeable d := fun d hd =>
    ⟨Decl.BoundList.exists_nest p.block.decls hbound.decls d hd,
      (htyped.declarations d hd).exists_ty⟩
  obtain ⟨l₁, hfold⟩ := Layout.exists_foldlM (r := 0) (l := Layout.empty) fun d hd =>
    hplaceable d (Decl.mem_subtrees hd)
  rw [Program.layout, hfold]
  exact Decl.exists_layOutList p.block.decls hplaceable l₁

/-! ## Places of names -/

section Names

variable {p : Program} {l : Layout} {bs : List (List Decl)} {ident : Ident} {id : Nat} {ty : Ty}
  (htyped : p.WellTyped Op.resultTy?) (hp : p.Numbered) (h : Nested p l bs)
  (hbound : ident.Bound (bs.map Decl.ids)) (hdecl : ident.decl = some id)

include htyped hp h hbound hdecl

theorem Nested.exists_find {kind : DeclKind} (hsig : p.signature id = some (kind, ty)) :
    ∃ storage nest, l.find ident = .ok (storage, nest) ∧ storage.kind = kind ∧
      ∀ declNest, storage.nest? = some declNest → declNest ≤ nest := by
  obtain ⟨inner, ds, outer, d, declNest, -, hlegal, hd, hident, hdeclNest, hnest⟩ :=
    h.exists_decl hbound
  obtain rfl : id = d.head.id := Option.some.inj (hdecl.symm.trans hident)
  obtain ⟨r, hfits⟩ := hlegal.fits
  obtain ⟨storage, hget, hkind, hstorage⟩ := hfits.exists_storage hd
  obtain ⟨ty', -, hrecord⟩ := htyped.records hp d (hlegal.mem d hd)
  rw [hrecord] at hsig
  cases hsig
  refine ⟨storage, declNest + inner.length, ?_, hkind, fun n hn => ?_⟩
  · simp only [Layout.find, hident, hnest, hget]
  · have hsame := (hstorage n hn).symm.trans hdeclNest
    cases hsame
    exact Nat.le_add_right _ _

theorem Nested.exists_load {kind : DeclKind} (hsig : p.signature id = some (kind, ty))
    (hkind : kind ≠ .procedure) : ∃ i, l.loadInstr ident = .ok i := by
  obtain ⟨storage, nest, hfind, rfl, hle⟩ := h.exists_find htyped hp hbound hdecl hsig
  rw [Layout.loadInstr, hfind]
  cases storage with
  | constant value => exact ⟨_, rfl⟩
  | «variable» slot declNest ty =>
    simp [bind, Except.bind, Layout.distance, hle declNest rfl, pure, Except.pure]
  | routine => exact absurd rfl hkind

theorem Nested.exists_store (hsig : p.signature id = some (.var, ty)) :
    ∃ i, l.storeInstr ident = .ok i := by
  obtain ⟨storage, nest, hfind, hkind, hle⟩ := h.exists_find htyped hp hbound hdecl hsig
  rw [Layout.storeInstr, hfind]
  cases storage with
  | «variable» slot declNest ty =>
    simp [bind, Except.bind, Layout.distance, hle declNest rfl, pure, Except.pure]
  | constant | routine => cases hkind

theorem Nested.exists_call (hsig : p.signature id = some (.procedure, ty)) :
    ∃ i, l.callInstr ident = .ok i := by
  obtain ⟨storage, nest, hfind, hkind, hle⟩ := h.exists_find htyped hp hbound hdecl hsig
  rw [Layout.callInstr, hfind]
  cases storage with
  | routine index declNest =>
    simp [bind, Except.bind, Layout.distance, hle declNest rfl, pure, Except.pure]
  | constant | «variable» => cases hkind

theorem Nested.exists_readTy (hsig : p.signature id = some (.var, ty)) (stmt : Token) :
    ∃ ty', l.readTy ident stmt = .ok ty' := by
  obtain ⟨storage, nest, hfind, hkind, -⟩ := h.exists_find htyped hp hbound hdecl hsig
  rw [Layout.readTy, hfind]
  cases storage with
  | «variable» slot declNest ty => exact ⟨ty, rfl⟩
  | constant | routine => cases hkind

end Names

/-! ## Making code -/

/-- Code is made, whatever the number of the next label. -/
def Emit.Total {α : Type} (m : Emit α) : Prop := ∀ c, ∃ a c', m c = .ok (a, c')

namespace Emit.Total

variable {α β : Type} {m : Emit α} {next : α → Emit β}

theorem pure (a : α) : Total (Pure.pure a) := fun c => ⟨a, c, rfl⟩

theorem bind (hm : Total m) (hnext : ∀ a, Total (next a)) : Total (m >>= next) := by
  intro c
  obtain ⟨a, c₁, hrun⟩ := hm c
  obtain ⟨b, c₂, hnext⟩ := hnext a c₁
  refine ⟨b, c₂, ?_⟩
  simp only [Bind.bind, StateT.bind, Except.bind, hrun]
  exact hnext

/-- A step that makes no code gives what it is known to give. -/
theorem lift {x : Except CodeFault α} {a : α} (hx : x = .ok a) (hnext : Total (next a)) :
    Total ((liftM x : Emit α) >>= next) := by
  subst hx
  exact hnext

theorem freshLabel : Total PLZero.freshLabel := fun c => ⟨_, c + 1, rfl⟩

end Emit.Total

open Emit (Total)

theorem total_branchCode (branch : Label → Instr) : Total (branchCode branch) :=
  .bind .freshLabel fun _ => .bind .freshLabel fun _ => .pure _

theorem Op.total_code {op : Op} {operand ty : Ty} (h : op.resultTy? operand = some ty)
    (line : Nat) : Total (op.code operand line) := by
  cases op with
  | arith a => cases a <;> cases operand <;> first | exact .pure _ | cases h
  | compare cond =>
    cases operand with
    | procedure => cases h
    | number | boolean => exact total_branchCode _
    | string => cases cond <;> first | exact total_branchCode _ | exact .pure _

theorem Expr.demandTy_eq {e : Expr} {ty : Ty} (h : e.ty = some ty) : e.demandTy = .ok ty := by
  simp only [Expr.demandTy, h]

theorem Stmt.total_codeList {l : Layout} {ss : List Stmt} (h : ∀ s ∈ ss, Total (s.code l)) :
    Total (Stmt.codeList l ss) := by
  induction ss with
  | nil => exact .pure _
  | cons s ss ih =>
    rw [List.forall_mem_cons] at h
    exact .bind h.1 fun _ => .bind (ih h.2) fun _ => .pure _

theorem Stmt.BoundList.of_mem {Δ : Scopes} {ss : List Stmt} (h : Stmt.BoundList Δ ss) :
    ∀ s ∈ ss, s.Bound Δ := by
  induction ss with
  | nil => simp
  | cons s ss ih =>
    rw [List.forall_mem_cons]
    exact ⟨h.1, ih h.2⟩

section Code

variable {p : Program} {l : Layout} {bs : List (List Decl)}
  (htyped : p.WellTyped Op.resultTy?) (hp : p.Numbered)

include htyped hp

theorem Expr.total_code {e : Expr} {ty : Ty} (he : e.HasTy Op.resultTy? p.signature ty)
    (h : Nested p l bs) (hbound : e.Bound (bs.map Decl.ids)) : Total (e.code l) := by
  induction he with
  | literal token value => exact .lift rfl (.pure _)
  | use hdecl hsig hkind _ =>
    obtain ⟨i, hi⟩ := h.exists_load htyped hp hbound hdecl hsig hkind
    exact .lift rfl (.lift hi (.pure _))
  | binary hl _ hop ihl ihr =>
    exact .lift rfl (.bind (ihl hbound.1) fun _ => .bind (ihr hbound.2) fun _ =>
      .lift (Expr.demandTy_eq hl.ty_eq) (.bind (Op.total_code hop _) fun _ => .pure _))

theorem Expr.total_guardCode {e : Expr} (he : e.HasTy Op.resultTy? p.signature .boolean)
    (h : Nested p l bs) (hbound : e.Bound (bs.map Decl.ids)) : Total (e.guardCode l) :=
  .bind (Expr.total_code htyped hp he h hbound) fun _ =>
    .lift (Expr.demandTy_eq he.ty_eq) (.pure _)

theorem Stmt.total_code {stmt : Stmt} (hs : stmt.WellTyped Op.resultTy? p.signature)
    (h : Nested p l bs) (hbound : stmt.Bound (bs.map Decl.ids)) : Total (stmt.code l) := by
  induction hs with
  | assign hdecl hsig he =>
    obtain ⟨i, hi⟩ := h.exists_store htyped hp hbound.1 hdecl hsig
    exact .bind (Expr.total_code htyped hp he h hbound.2) fun _ => .lift hi (.pure _)
  | call hdecl hsig =>
    obtain ⟨i, hi⟩ := h.exists_call htyped hp hbound hdecl hsig
    exact .lift hi (.pure _)
  | @input token _ _ _ hdecl hsig =>
    obtain ⟨ty, hty⟩ := h.exists_readTy htyped hp hbound hdecl hsig token
    obtain ⟨i, hi⟩ := h.exists_store htyped hp hbound hdecl hsig
    exact .lift hty (.lift hi (.pure _))
  | output he =>
    exact .bind (Expr.total_code htyped hp he h hbound) fun _ =>
      .lift (Expr.demandTy_eq he.ty_eq) (.pure _)
  | begin _ ih =>
    exact Stmt.total_codeList fun s hs => ih s hs (Stmt.BoundList.of_mem hbound s hs)
  | «if» hg _ ih =>
    exact .bind .freshLabel fun _ => .bind (Expr.total_guardCode htyped hp hg h hbound.1) fun _ =>
      .bind (ih hbound.2) fun _ => .pure _
  | «while» hg _ ih =>
    exact .bind .freshLabel fun _ => .bind .freshLabel fun _ => .bind (ih hbound.2) fun _ =>
      .bind (Expr.total_guardCode htyped hp hg h hbound.1) fun _ => .pure _
  | empty token => exact .pure _

end Code

section Routines

variable {p : Program} {l : Layout}

mutual

theorem Decl.total_codes (htyped : p.WellTyped Op.resultTy?) (hp : p.Numbered)
    (hl : p.Placed l) : (d : Decl) → {ds : List Decl} → {bs : List (List Decl)} →
    Nested p l (ds :: bs) → d ∈ ds → Total (d.codes l)
  | .const .., _, _, _, _ | .var _, _, _, _, _ => .pure _
  | .procedure head decls stmt, ds, bs, h, hd => by
    obtain ⟨r, nest, hget, hfits⟩ := hl.procedures _ (h.1.mem _ hd) _ _ _ rfl
    obtain ⟨hlegal, hstmt⟩ := h.1.procedure hp hd ⟨r, hfits⟩
    have hnested : Nested p l (decls :: ds :: bs) := ⟨hlegal, h⟩
    cases htyped.declarations _ (h.1.mem _ hd) with
    | procedure _ _ hs =>
      rw [Decl.codes, hget]
      exact .bind (Decl.total_codesList htyped hp hl decls hnested fun _ hd => hd) fun _ =>
        .bind (Stmt.total_code htyped hp hs hnested hstmt) fun _ => .pure _

theorem Decl.total_codesList (htyped : p.WellTyped Op.resultTy?) (hp : p.Numbered)
    (hl : p.Placed l) : (ds' : List Decl) → {ds : List Decl} → {bs : List (List Decl)} →
    Nested p l (ds :: bs) → (∀ d ∈ ds', d ∈ ds) → Total (Decl.codesList l ds')
  | [], _, _, _, _ => .pure _
  | d :: ds', _, _, h, hds => by
    rw [List.forall_mem_cons] at hds
    exact .bind (Decl.total_codes htyped hp hl d h hds.1) fun _ =>
      .bind (Decl.total_codesList htyped hp hl ds' h hds.2) fun _ => .pure _

end

theorem Program.total_codes (htyped : p.WellTyped Op.resultTy?) (hp : p.Numbered)
    (hbound : p.Bound) (hl : p.Placed l) : Total (p.codes l) := by
  have hnested : Nested p l [p.block.decls] := ⟨hbound.legal hp hl.main, trivial⟩
  exact .bind (Decl.total_codesList htyped hp hl p.block.decls hnested fun _ hd => hd) fun _ =>
    .bind (Stmt.total_code htyped hp htyped.stmt hnested hbound.stmt) fun _ => .pure _

end Routines

/-! ## Frames and code -/

/-- The number of procedures among the declarations. -/
def Decl.procedureCount (ds : List Decl) : Nat := ds.countP fun d => d.kind = .procedure

theorem Decl.procedureCount_append (ds ds' : List Decl) :
    procedureCount (ds ++ ds') = procedureCount ds + procedureCount ds' :=
  List.countP_append

theorem Decl.procedureCount_cons (d : Decl) (ds : List Decl) :
    procedureCount (d :: ds) = procedureCount [d] + procedureCount ds :=
  procedureCount_append [d] ds

namespace Layout

variable {l l' : Layout} {r : Nat}

theorem size_add {d : Decl} (h : add r l d = .ok l') :
    l'.frames.size = l.frames.size + Decl.procedureCount [d] := by
  obtain ⟨storage, frames, hadded, rfl⟩ := added_of_add h
  cases hadded <;> simp [Decl.procedureCount, Decl.kind]

theorem size_foldlM {ds : List Decl} (h : ds.foldlM (add r) l = .ok l') :
    l'.frames.size = l.frames.size + Decl.procedureCount ds := by
  induction ds generalizing l with
  | nil =>
    cases h
    rfl
  | cons d ds ih =>
    obtain ⟨l₁, hadd, hrest⟩ := foldlM_cons h
    rw [ih hrest, size_add hadd, Decl.procedureCount_cons d ds]
    omega

end Layout

mutual

/-- Laying out what is inside a declaration adds a frame for each procedure there at most. -/
theorem Decl.size_layOut : (d : Decl) → {l l' : Layout} → d.layOut l = .ok l' →
    l'.frames.size + procedureCount [d] ≤ l.frames.size + procedureCount d.subtree
  | .const .., _, _, h | .var _, _, _, h => by
    cases h
    exact Nat.le_refl _
  | .procedure head decls stmt, l, l', h => by
    have hone : procedureCount [.procedure head decls stmt] = 1 := rfl
    rw [Decl.subtree, procedureCount_cons _ (subtrees decls), hone]
    rw [Decl.layOut] at h
    split at h
    · obtain ⟨l₁, hfold, hlist⟩ := exists_of_bind_ok h
      have hsize := Layout.size_foldlM hfold
      have hle := Decl.size_layOutList decls hlist
      omega
    · cases h
      omega

theorem Decl.size_layOutList : (ds : List Decl) → {l l' : Layout} → Decl.layOutList l ds = .ok l' →
    l'.frames.size + procedureCount ds ≤ l.frames.size + procedureCount (subtrees ds)
  | [], _, _, h => by
    cases h
    exact Nat.le_refl _
  | d :: ds, l, l', h => by
    obtain ⟨l₁, hd, hds⟩ := layOutList_cons h
    have hd := Decl.size_layOut d hd
    have hds := Decl.size_layOutList ds hds
    rw [Decl.subtrees, procedureCount_append, procedureCount_cons]
    omega

end

theorem Program.size_layout {p : Program} {l : Layout} (h : p.layout = .ok l) :
    l.frames.size ≤ Decl.procedureCount p.declarations + 1 := by
  obtain ⟨l₁, hfold, hlist⟩ := exists_of_bind_ok h
  have hsize : l₁.frames.size = 1 + _ := Layout.size_foldlM hfold
  have hle := Decl.size_layOutList p.block.decls hlist
  rw [Program.declarations]
  omega

mutual

theorem Decl.length_codes {l : Layout} : (d : Decl) → {c c' : Nat} →
    {es : List (Nat × List Instr)} → d.codes l c = .ok (es, c') →
    es.length = procedureCount d.subtree
  | .const .., _, _, _, h | .var _, _, _, _, h => by
    obtain ⟨rfl, -⟩ := Emit.of_pure h
    rfl
  | .procedure head decls stmt, _, _, _, h => by
    obtain ⟨index, nest, nested, seg, c₁, -, hnested, -, rfl⟩ := codes_procedure h
    rw [List.length_append, Decl.length_codesList decls hnested, Decl.subtree,
      procedureCount_cons, Nat.add_comm]
    rfl

theorem Decl.length_codesList {l : Layout} : (ds : List Decl) → {c c' : Nat} →
    {es : List (Nat × List Instr)} → Decl.codesList l ds c = .ok (es, c') →
    es.length = procedureCount (subtrees ds)
  | [], _, _, _, h => by
    obtain ⟨rfl, -⟩ := Emit.of_pure h
    rfl
  | d :: ds, _, _, _, h => by
    obtain ⟨first, rest, c₁, hd, hds, rfl⟩ := codesList_cons h
    rw [List.length_append, Decl.length_codes d hd, Decl.length_codesList ds hds,
      Decl.subtrees, procedureCount_append]

end

/-- Different numbers below `n`, and as many as that, are all of them. -/
theorem mem_of_nodup_of_length_le {is : List Nat} {n : Nat} (hnodup : is.Nodup)
    (hlt : ∀ i ∈ is, i < n) (hlength : n ≤ is.length) : ∀ i < n, i ∈ is := by
  have hsub : is.Subperm (List.range n) :=
    hnodup.subperm fun i hi => List.mem_range.mpr (hlt i hi)
  have hperm := hsub.perm_of_length_le (by simpa using hlength)
  exact fun i hi => hperm.mem_iff.mpr (List.mem_range.mpr hi)

theorem exists_assemble {es : List (Nat × List Instr)} {frames : List Frame} {index : Nat}
    (h : ∀ k < frames.length, index + k ∈ es.map Prod.fst) :
    ∃ rs, assemble es index frames = .ok rs := by
  induction frames generalizing index with
  | nil => exact ⟨[], rfl⟩
  | cons frame frames ih =>
    rw [assemble]
    cases hlookup : es.reverse.lookup index with
    | none =>
      rw [List.lookup_eq_none_iff] at hlookup
      obtain ⟨x, hx, hindex⟩ := List.mem_map.mp (h 0 (by simp))
      simpa [hindex] using hlookup x (List.mem_reverse.mpr hx)
    | some code =>
      have hrest : ∀ k < frames.length, index + 1 + k ∈ es.map Prod.fst := by
        intro k hk
        rw [show index + 1 + k = index + (k + 1) from by omega]
        exact h (k + 1) (Nat.succ_lt_succ hk)
      obtain ⟨rs, hrs⟩ := ih hrest
      rw [hrs]
      exact ⟨_, rfl⟩

/-- **A unit is made for every program that is bound, typed and numbered.** -/
theorem Program.exists_generate {p : Program} {name : String} (hbound : p.Bound)
    (htyped : p.WellTyped Op.resultTy?) (hp : p.Numbered) (hname : UnitName.isValid name = true) :
    ∃ u, p.generate name = .ok u := by
  obtain ⟨l, hlayout⟩ := Program.exists_layout hbound htyped
  have hl := Program.placed_layout hlayout hp.nodup
  obtain ⟨es, c, hes⟩ := Program.total_codes htyped hp hbound hl 0
  have hall := Program.assembled_codes hes hl.sound hp.nodup
  have hlength : l.frames.size ≤ es.length := by
    obtain ⟨nested, seg, c₁, hnested, -, rfl⟩ := Program.codes_eq hes
    rw [List.length_append, Decl.length_codesList _ hnested]
    exact Program.size_layout hlayout
  have hindices : ∀ k < l.frames.toList.length, 0 + k ∈ es.map Prod.fst := by
    intro k hk
    rw [Nat.zero_add]
    refine mem_of_nodup_of_length_le hall.nodup (fun i hi => ?_) (by simpa using hlength) k hk
    obtain ⟨x, hx, rfl⟩ := List.mem_map.mp hi
    exact hall.lt x hx
  obtain ⟨rs, hrs⟩ := exists_assemble hindices
  refine ⟨⟨name, rs⟩, ?_⟩
  rw [Program.generate_eq_assemble]
  simp only [hname, hlayout, StateT.run', hes, hrs, bind, Except.bind, pure,
    Except.pure, Functor.map, Except.map]
  rfl

end PLZero
