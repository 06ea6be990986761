import PLZero.Proofs.Scope.Bound
import PLZero.Proofs.Token.Scan
import PLZero.Proofs.Tree.Tokens
import PLZero.Proofs.Typing.Fixpoint

/-!
# What inference can stop at

Over a bound program every use of a name has an entry in the engine, so no pass finds a name
unbound.  Whatever else a pass stops at, it stops at the place of a token of the tree.

* `Walk.Infers` — the engine keeps its size, and the fault is at a token.  One lemma for each part
  of a pass.
* `Program.Ready` — what a program must be for that, and stays during all passes.
* `Program.inferTypes_fault` — the fault that inference ends with.
-/

namespace PLZero

/-- The fault is at the place of one of the tokens, and no name is unbound. -/
def TypeFault.In (T : Token → Prop) : TypeFault → Prop
  | .unbound _ => False
  | .mismatch _ _ _ place | .operands _ _ _ place | .inapplicable _ _ place | .outputOf _ place
  | .unknownExpr _ place => ∃ t, T t ∧ t.place = place
  | .badTarget _ _ token | .procedureAsValue token | .unknownVariable token | .unknownInput token =>
    T token

/-- The tree has `P`, the engine has `n` entries, and the fault is at one of the tokens. -/
abbrev Walk.Infers {α : Type} (w : Inferring α) (T : Token → Prop) (n : Nat) (P : α → Prop) :
    Prop :=
  w.Meets P (fun s => s.entries.size = n) (TypeFault.In T)

/-- All numbers are below `n`. -/
def Scopes.Below (n : Nat) (Δ : Scopes) : Prop := ∀ ids ∈ Δ, ∀ id ∈ ids, id < n

variable {T : Token → Prop} {n : Nat} {Δ : Scopes} {s : Engine}

/-! ## Declarations of names -/

namespace Engine

theorem meets_settleDecl {id : Nat} {cause : Token} (ty : Ty) (hs : s.entries.size = n)
    (hid : id < n) (hcause : T cause) :
    Meets (s.settleDecl id ty cause) (fun s => s.entries.size = n) (TypeFault.In T) := by
  rcases s.settleDecl_cases id ty cause with
    ⟨hnone, -⟩ | ⟨entry, -, ⟨-, h⟩ | ⟨-, h⟩ | ⟨current, -, -, h⟩⟩
  · rw [Array.getElem?_eq_none_iff] at hnone
    omega
  · rw [h]
    simpa [Meets, fillDecl, mark] using hs
  · rw [h]
    exact hs
  · rw [h]
    exact ⟨cause, hcause, rfl⟩

/-- A bound use has an entry. -/
theorem exists_entryOf {ident : Ident} (hΔ : Δ.Below n) (hs : s.entries.size = n)
    (h : ident.Bound Δ) : ∃ id kind, id < n ∧ s.entryOf ident = .ok (id, kind) := by
  obtain ⟨-, id, ids, hdecl, hids, hid⟩ := h
  have hlt := hΔ ids hids id hid
  refine ⟨id, s.entries[id].kind, hlt, ?_⟩
  simp [entryOf, hdecl, Array.getElem?_eq_getElem (hs ▸ hlt : id < s.entries.size)]

theorem meets_target {ident : Ident} (hΔ : Δ.Below n) (hs : s.entries.size = n)
    (h : ident.Bound Δ) (ht : T ident.token) (use : TargetUse) :
    Meets (s.target ident use) (· < n) (TypeFault.In T) := by
  obtain ⟨id, kind, hid, hentry⟩ := exists_entryOf hΔ hs h
  simp only [target, hentry, bind, Except.bind]
  split
  · exact hid
  · exact ht

theorem meets_valueDecl {ident : Ident} (hΔ : Δ.Below n) (hs : s.entries.size = n)
    (h : ident.Bound Δ) (ht : T ident.token) :
    Meets (s.valueDecl ident) (· < n) (TypeFault.In T) := by
  obtain ⟨id, kind, hid, hentry⟩ := exists_entryOf hΔ hs h
  simp only [valueDecl, hentry, bind, Except.bind]
  split
  · exact ht
  · exact hid

end Engine

/-! ## Expressions -/

/-- The tokens of the expression are among those given, and its names are bound. -/
abbrev Expr.Ready (T : Token → Prop) (Δ : Scopes) (e : Expr) : Prop := e.From T ∧ e.Bound Δ

namespace Expr

variable {e : Expr}

theorem Ready.setTy (h : e.Ready T Δ) (ty : Option Ty) : (e.setTy ty).Ready T Δ := by
  cases e <;> exact h

theorem ready_binary {token : Token} {ty : Option Ty} {op : Op} {lhs rhs : Expr} :
    (Expr.binary token ty op lhs rhs).Ready T Δ ↔ T token ∧ lhs.Ready T Δ ∧ rhs.Ready T Δ := by
  simp only [Ready, From, Bound]
  grind

theorem infers_settleTy (h : e.Ready T Δ) (ty : Ty) (hs : s.entries.size = n) :
    (e.settleTy ty s).Infers T n (Ready T Δ) := by
  rcases e.settleTy_cases ty s with ⟨-, hrun⟩ | ⟨-, hrun⟩ | ⟨current, -, -, hrun⟩ <;> rw [hrun]
  · exact .done (h.setTy _) hs
  · exact .done h hs
  · exact .stop h hs ⟨e.token, h.1.token, rfl⟩

theorem infers_afterDecl {id : Nat} {cause : Token} (h : e.Ready T Δ) (ty : Ty)
    (hs : s.entries.size = n) (hid : id < n) (hcause : T cause) :
    (e.afterDecl s (s.settleDecl id ty cause)).Infers T n (Ready T Δ) := by
  have hsettle := Engine.meets_settleDecl ty hs hid hcause
  cases hrun : s.settleDecl id ty cause with
  | ok s' => exact .done h (hsettle.of_ok hrun)
  | error f => exact .stop h hs (hsettle.of_error hrun)

theorem infers_push (hΔ : Δ.Below n) (ty : Ty) (h : e.Ready T Δ) (hs : s.entries.size = n) :
    (e.push ty s).Infers T n (Ready T Δ) := by
  induction e generalizing s with
  | literal token slot value => exact infers_settleTy h ty hs
  | use ident slot =>
    refine (infers_settleTy h ty hs).onward fun e s he hs => ?_
    have hdecl := Engine.meets_valueDecl hΔ hs h.2 h.1
    cases hrun : s.valueDecl ident with
    | ok id => exact infers_afterDecl he ty hs (hdecl.of_ok hrun) h.1
    | error f => exact .stop he hs (hdecl.of_error hrun)
  | binary token slot op lhs rhs ihl ihr =>
    obtain ⟨ht, hl, hr⟩ := ready_binary.mp h
    simp only [push]
    split
    · exact .stop h hs ⟨token, ht, rfl⟩
    · split
      · exact .done (ready_binary.mpr ⟨ht, hl, hr⟩) hs
      · refine Walk.Meets.andThen (P := Ready T Δ) (Q := Ready T Δ) ?_ hr (fun s hs => ?_)
          fun _ _ hl hr => ready_binary.mpr ⟨ht, hl, hr⟩
        · split
          · exact ihl hl hs
          · exact .done hl hs
        · split
          · exact ihr hr hs
          · exact .done hr hs

theorem infers_balance {token : Token} {slot : Option Ty} {op : Op} {lhs rhs : Expr}
    (hΔ : Δ.Below n) (ht : T token) (hl : lhs.Ready T Δ) (hr : rhs.Ready T Δ)
    (hs : s.entries.size = n) :
    (balance token slot op lhs rhs s).Infers T n (Ready T Δ) := by
  unfold balance
  split
  · exact (infers_push hΔ _ hr hs).map fun _ hr => ready_binary.mpr ⟨ht, hl, hr⟩
  · exact (infers_push hΔ _ hl hs).map fun _ hl => ready_binary.mpr ⟨ht, hl, hr⟩
  · exact (infers_push hΔ _ hl hs).andThen hr (fun _ hs => infers_push hΔ _ hr hs)
      fun _ _ hl hr => ready_binary.mpr ⟨ht, hl, hr⟩
  · exact .done (ready_binary.mpr ⟨ht, hl, hr⟩) hs

theorem infers_combine (op : Op) (left right : Option Ty) (h : e.Ready T Δ)
    (hs : s.entries.size = n) : (combine op left right e s).Infers T n (Ready T Δ) := by
  unfold combine
  refine Walk.Meets.onward ?_ fun e s he hs => ?_
  · split
    · exact infers_settleTy h .boolean hs
    · exact .done h hs
  · split
    · split
      · split
        · exact infers_settleTy he _ hs
        · exact .stop he hs ⟨e.token, he.1.token, rfl⟩
      · exact .stop he hs ⟨e.token, he.1.token, rfl⟩
    · exact .done he hs

theorem infers_demand (strict : Bool) (h : e.Ready T Δ) (hs : s.entries.size = n) :
    (demand strict e s).Infers T n (Ready T Δ) := by
  unfold demand
  split
  · exact .stop h hs ⟨e.token, h.1.token, rfl⟩
  · exact .done h hs

theorem infers_meetDecl {ident : Ident} {slot : Option Ty} (hΔ : Δ.Below n)
    (h : (Expr.use ident slot).Ready T Δ) (hs : s.entries.size = n) :
    (meetDecl ident slot s).Infers T n (Ready T Δ) := by
  have hdecl := Engine.meets_valueDecl hΔ hs h.2 h.1
  unfold meetDecl
  cases hrun : s.valueDecl ident with
  | error f => exact .stop h hs (hdecl.of_error hrun)
  | ok id =>
    dsimp only
    split
    · exact infers_settleTy h _ hs
    · exact infers_afterDecl h _ hs (hdecl.of_ok hrun) h.1
    · exact .done h hs

theorem infers_meetOperands (hΔ : Δ.Below n) (h : e.Ready T Δ) (hs : s.entries.size = n) :
    (meetOperands e s).Infers T n (Ready T Δ) := by
  cases e with
  | literal | use => exact .done h hs
  | binary token ty op lhs rhs =>
    obtain ⟨ht, hl, hr⟩ := ready_binary.mp h
    exact (infers_balance hΔ ht hl hr hs).onward fun e s he hs => infers_combine _ _ _ he hs

theorem infers_infer (hΔ : Δ.Below n) (strict : Bool) (h : e.Ready T Δ) (hs : s.entries.size = n) :
    (e.infer strict s).Infers T n (Ready T Δ) := by
  induction e generalizing s with
  | literal => exact (infers_settleTy h _ hs).onward fun _ _ he hs => infers_demand strict he hs
  | use => exact (infers_meetDecl hΔ h hs).onward fun _ _ he hs => infers_demand strict he hs
  | binary token ty op lhs rhs ihl ihr =>
    obtain ⟨ht, hl, hr⟩ := ready_binary.mp h
    have hjoin (lhs rhs : Expr) (hl : lhs.Ready T Δ) (hr : rhs.Ready T Δ) :
        (Expr.binary token ty op lhs rhs).Ready T Δ := ready_binary.mpr ⟨ht, hl, hr⟩
    have hoperands := (ihl hl hs).andThen hr (fun _ hs => ihr hr hs) hjoin
    exact (hoperands.onward fun _ _ he hs => infers_meetOperands hΔ he hs).onward
      fun _ _ he hs => infers_demand strict he hs

theorem infers_inferGuard (hΔ : Δ.Below n) (strict : Bool) (h : e.Ready T Δ)
    (hs : s.entries.size = n) : (e.inferGuard strict s).Infers T n (Ready T Δ) := by
  refine (infers_infer hΔ strict h hs).onward fun e s he hs => ?_
  split
  · exact infers_push hΔ .boolean he hs
  · exact .done he hs
  · exact .stop he hs ⟨e.token, he.1.token, rfl⟩

end Expr

/-! ## Statements -/

mutual

theorem Stmt.infers_infer (hΔ : Δ.Below n) (strict : Bool) : (stmt : Stmt) → {s : Engine} →
    stmt.From T → stmt.Bound Δ → s.entries.size = n →
    (stmt.infer strict s).Infers T n (Stmt.From T)
  | .assign target expr, s, h, hb, hs => by
    have htarget := Engine.meets_target hΔ hs hb.1 h.1 .assign
    rw [Stmt.infer]
    cases hrun : s.target target .assign with
    | error f => exact .stop h hs (htarget.of_error hrun)
    | ok id =>
      refine Walk.Meets.map (P := Expr.Ready T Δ) (Walk.Meets.onward
        (Expr.infers_infer hΔ strict ⟨h.2, hb.2⟩ hs) fun e s he hs => ?_) fun _ he => ⟨h.1, he.1⟩
      split
      · exact Expr.infers_push hΔ _ he hs
      · exact Expr.infers_afterDecl he _ hs (htarget.of_ok hrun) h.1
      · exact .done he hs
  | .call token target, s, h, hb, hs => by
    have htarget := Engine.meets_target hΔ hs hb h.2 .call
    rw [Stmt.infer]
    cases hrun : s.target target .call with
    | error f => exact .stop h hs (htarget.of_error hrun)
    | ok id => exact .done h hs
  | .input token target, s, h, hb, hs => by
    have htarget := Engine.meets_target hΔ hs hb h.2 .read
    rw [Stmt.infer]
    cases hrun : s.target target .read with
    | error f => exact .stop h hs (htarget.of_error hrun)
    | ok id =>
      dsimp only
      split
      · exact .stop h hs h.2
      · exact .done h hs
  | .output token expr, s, h, hb, hs => by
    rw [Stmt.infer]
    refine Walk.Meets.map (P := Expr.Ready T Δ) (Walk.Meets.onward
      (Expr.infers_infer hΔ strict ⟨h.2, hb⟩ hs) fun e s he hs => ?_) fun _ he => ⟨h.1, he.1⟩
    split
    · split
      · exact .done he hs
      · exact .stop he hs ⟨token, h.1, rfl⟩
    · exact .done he hs
  | .begin token stmts, s, h, hb, hs => by
    rw [Stmt.infer]
    exact (Stmt.infers_inferList hΔ strict stmts h.2 hb hs).map fun _ hss => ⟨h.1, hss⟩
  | .if token guard body, s, h, hb, hs => by
    rw [Stmt.infer]
    exact (Expr.infers_inferGuard hΔ strict ⟨h.2.1, hb.1⟩ hs).andThen h.2.2
      (fun _ hs => Stmt.infers_infer hΔ strict body h.2.2 hb.2 hs)
      fun _ _ hg hbody => ⟨h.1, hg.1, hbody⟩
  | .while token guard body, s, h, hb, hs => by
    rw [Stmt.infer]
    exact (Expr.infers_inferGuard hΔ strict ⟨h.2.1, hb.1⟩ hs).andThen h.2.2
      (fun _ hs => Stmt.infers_infer hΔ strict body h.2.2 hb.2 hs)
      fun _ _ hg hbody => ⟨h.1, hg.1, hbody⟩
  | .empty _, _, h, _, hs => .done h hs

theorem Stmt.infers_inferList (hΔ : Δ.Below n) (strict : Bool) : (stmts : List Stmt) →
    {s : Engine} → Stmt.FromList T stmts → Stmt.BoundList Δ stmts → s.entries.size = n →
    (Stmt.inferList strict stmts s).Infers T n (Stmt.FromList T)
  | [], _, h, _, hs => .done h hs
  | stmt :: stmts, _, h, hb, hs => by
    rw [Stmt.inferList]
    exact (Stmt.infers_infer hΔ strict stmt h.1 hb.1 hs).andThen h.2
      (fun _ hs => Stmt.infers_inferList hΔ strict stmts h.2 hb.2 hs) fun _ _ hs hss => ⟨hs, hss⟩

end

/-! ## Blocks -/

theorem Scopes.Below.cons {ds : List Decl} (hds : ∀ d ∈ ds, d.head.id < n) (hΔ : Δ.Below n) :
    Scopes.Below n (Decl.ids ds :: Δ) := by
  rw [Scopes.Below, List.forall_mem_cons]
  exact ⟨List.forall_mem_map.mpr hds, hΔ⟩

namespace Engine

theorem declare_spec (strict : Bool) {ds : List Decl} (hids : ∀ d ∈ ds, d.head.id < n)
    (h : Decl.FromList T ds) (hs : s.entries.size = n) :
    (s.declare strict ds).1.entries.size = n ∧
      ∀ f, (s.declare strict ds).2 = some f → f.In T := by
  induction ds generalizing s with
  | nil => exact ⟨hs, by simp [declare]⟩
  | cons d ds ih =>
    rw [List.forall_mem_cons] at hids
    rw [declare]
    split
    · rename_i ty _
      have hsettle := meets_settleDecl ty hs hids.1 h.1.token
      cases hrun : s.settleDecl d.head.id ty d.head.token with
      | ok s' => exact ih hids.2 h.2 (hsettle.of_ok hrun)
      | error f => exact ⟨hs, by simpa using hsettle.of_error hrun⟩
    · split
      · exact ⟨hs, by simpa [TypeFault.In] using h.1.token⟩
      · exact ih hids.2 h.2 hs

theorem infers_inferBlock (hΔ : Δ.Below n) (strict : Bool) {ds : List Decl} {stmt : Stmt}
    {bodies : Engine → Inferring (List Decl)} (hids : ∀ d ∈ ds, d.head.id < n)
    (h : Block.From T ⟨ds, stmt⟩) (hb : stmt.Bound (Decl.ids ds :: Δ))
    (hbodies : ∀ s : Engine, s.entries.size = n → (bodies s).Infers T n (Decl.FromList T))
    (hs : s.entries.size = n) : (s.inferBlock strict ds stmt bodies).Infers T n (Block.From T) := by
  obtain ⟨hsize, hfault⟩ := declare_spec strict hids h.1 hs
  unfold inferBlock
  split
  · rename_i heq
    rw [heq] at hsize hfault
    exact .stop h hsize (hfault _ rfl)
  · rename_i heq
    rw [heq] at hsize
    exact (hbodies _ hsize).andThen h.2
      (fun _ hs => Stmt.infers_infer (hΔ.cons hids) strict stmt h.2 hb hs)
      fun _ _ hds hstmt => ⟨hds, hstmt⟩

end Engine

mutual

theorem Decl.infers_infer (strict : Bool) : (d : Decl) → {Δ : Scopes} → {s : Engine} →
    Δ.Below n → (∀ x ∈ d.subtree, x.head.id < n) → d.From T → d.Bound Δ → s.entries.size = n →
    (d.infer strict s).Infers T n (Decl.From T)
  | .const .., _, _, _, _, h, _, hs | .var _, _, _, _, _, h, _, hs => .done h hs
  | .procedure head ds stmt, Δ, s, hΔ, hids, h, hb, hs => by
    rw [Decl.subtree, List.forall_mem_cons] at hids
    have hds : ∀ d ∈ ds, d.head.id < n := fun d hd => hids.2 d (Decl.mem_subtrees hd)
    rw [Decl.infer]
    refine (Engine.infers_inferBlock hΔ strict hds h.2 hb.2.2 (fun s hs => ?_) hs).map
      fun _ hblock => ⟨h.1, hblock.1, hblock.2⟩
    exact Decl.infers_inferList strict ds (hΔ.cons hds) hids.2 h.2.1 hb.2.1 hs

theorem Decl.infers_inferList (strict : Bool) : (ds : List Decl) → {Δ : Scopes} → {s : Engine} →
    Δ.Below n → (∀ x ∈ Decl.subtrees ds, x.head.id < n) → Decl.FromList T ds →
    Decl.BoundList Δ ds → s.entries.size = n →
    (Decl.inferList strict ds s).Infers T n (Decl.FromList T)
  | [], _, _, _, _, h, _, hs => .done h hs
  | d :: ds, _, _, hΔ, hids, h, hb, hs => by
    rw [Decl.subtrees, List.forall_mem_append] at hids
    rw [Decl.inferList]
    exact (Decl.infers_infer strict d hΔ hids.1 h.1 hb.1 hs).andThen h.2
      (fun _ hs => Decl.infers_inferList strict ds hΔ hids.2 h.2 hb.2 hs)
      fun _ _ hd hds => ⟨hd, hds⟩

end

mutual

theorem Decl.From.writeBack (s : Engine) : (d : Decl) → d.From T → (d.writeBack s).From T
  | .const .., h | .var _, h => h
  | .procedure _ ds _, h => ⟨h.1, Decl.FromList.writeBack s ds h.2.1, h.2.2⟩

theorem Decl.FromList.writeBack (s : Engine) :
    (ds : List Decl) → Decl.FromList T ds → Decl.FromList T (Decl.writeBackList s ds)
  | [], _ => trivial
  | d :: ds, h => ⟨Decl.From.writeBack s d h.1, Decl.FromList.writeBack s ds h.2⟩

end

/-! ## Passes -/

/-- The tokens of the program are among those given, its names are bound and its declarations are
numbered. -/
structure Program.Ready (T : Token → Prop) (p : Program) : Prop where
  tokens : p.From T
  bound : p.Bound
  numbered : p.Numbered

namespace Engine

variable {p : Program}

theorem infers_visit (strict : Bool) (hp : p.Ready T) (hs : s.entries.size = p.declCount) :
    (s.visit strict p).Infers T p.declCount (Block.From T) := by
  have hids : ∀ d ∈ p.declarations, d.head.id < p.declCount := by
    intro d hd
    have hmem := List.mem_map_of_mem (f := fun d => d.head.id) hd
    rw [hp.numbered] at hmem
    exact List.mem_range.mp hmem
  have hds : ∀ d ∈ p.block.decls, d.head.id < p.declCount := fun d hd =>
    hids d (Decl.mem_subtrees hd)
  have hbelow : Scopes.Below p.declCount [] := by simp [Scopes.Below]
  refine infers_inferBlock hbelow strict hds hp.tokens hp.bound.stmt (fun s hs => ?_) hs
  exact Decl.infers_inferList strict p.block.decls (hbelow.cons hds) hids hp.tokens.1
    hp.bound.decls hs

theorem infers_pass (strict : Bool) (hp : p.Ready T) (hs : s.entries.size = p.declCount) :
    (s.pass strict p).Infers T p.declCount fun q => q.Ready T ∧ q.declCount = p.declCount := by
  have hpass : (s.pass strict p).Infers T p.declCount (Program.From T) := by
    have hvisit := infers_visit strict hp hs
    rw [pass_eq]
    split
    · rename_i hfault
      exact .stop hvisit.tree hvisit.state (hvisit.fault _ hfault)
    · exact .done ⟨Decl.FromList.writeBack _ _ hvisit.tree.1, hvisit.tree.2⟩ hvisit.state
  have hsame := (s.fills_pass strict p).same
  refine ⟨⟨⟨hpass.tree, ?_, ?_⟩, ?_⟩, hpass.state, hpass.fault⟩
  · exact hp.bound.of_untyped hsame
  · exact hp.numbered.of_untyped hsame
  · exact (congrArg Program.declCount hsame :)

theorem infers_fixpoint (budget done : Nat) (hp : p.Ready T) (hs : s.entries.size = p.declCount) :
    (fixpoint budget done s p).1.Infers T p.declCount
      fun q => q.Ready T ∧ q.declCount = p.declCount := by
  induction budget generalizing done s p with
  | zero => exact .done ⟨hp, rfl⟩ hs
  | succ budget ih =>
    have hpass := infers_pass false hp hs
    obtain ⟨hready, hcount⟩ := hpass.tree
    simp only [fixpoint]
    split
    · exact hpass
    · split
      · exact hpass
      · have hrest := ih (done + 1) hready (hpass.state.trans hcount.symm)
        rwa [hcount] at hrest

end Engine

/-- **Inference over a program that is ready stops at a token**, and at no unbound name. -/
theorem Program.inferTypes_fault {p : Program} {f : TypeFault} (hp : p.Ready T)
    (h : p.inferTypes.2 = .error f) : f.In T := by
  have hfix := Engine.infers_fixpoint (p.declCount + p.expressions.length + Engine.minPasses) 0 hp
    (Engine.size_ofProgram p)
  have hstrict (q : Program) (s : Engine) (hq : q.Ready T ∧ q.declCount = p.declCount)
      (hs : s.entries.size = p.declCount) :
      (s.pass true q).Infers T p.declCount fun q => q.Ready T ∧ q.declCount = p.declCount := by
    have hpass := Engine.infers_pass true hq.1 (hs.trans hq.2.symm)
    rwa [hq.2] at hpass
  have hlast := hfix.onward hstrict
  unfold inferTypes Engine.infer at h
  dsimp only at h
  split at h
  · rename_i hfault
    cases h
    exact hlast.fault _ hfault
  · cases h

end PLZero
