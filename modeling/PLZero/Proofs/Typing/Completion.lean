import PLZero.Proofs.Typing.Signature
import PLZero.Proofs.Typing.Stability

/-!
# Completing a stable program

A program on which passes find nothing new may still have empty slots.  They can all be filled with
one type, and any value type will do that every operator of the table accepts:

* `Program.complete` — the program with a type for every slot: what the tree and the engine hold,
  and `t` where they hold nothing.
* `Program.isTyping_complete` — for a stable program it is a typing.  Over the table of the language
  `t` can be `number`; over the loose table it can be any value type.
-/

namespace PLZero

/-! ## Complete trees -/

/-- The value type in the slot, or `t`. -/
def completeTy (t : Ty) (slot : Option Ty) : Ty :=
  match slot with
  | some ty => if ty.isValue then ty else t
  | none => t

def Expr.complete (t : Ty) : Expr → Expr
  | .literal token ty value => .literal token (some (completeTy t ty)) value
  | .use ident ty => .use ident (some (completeTy t ty))
  | .binary token ty op lhs rhs =>
    .binary token (some (completeTy t ty)) op (lhs.complete t) (rhs.complete t)

mutual

def Stmt.complete (t : Ty) : Stmt → Stmt
  | .assign target expr => .assign target (expr.complete t)
  | .call token target => .call token target
  | .input token target => .input token target
  | .output token expr => .output token (expr.complete t)
  | .begin token stmts => .begin token (Stmt.completeList t stmts)
  | .if token guard body => .if token (guard.complete t) (body.complete t)
  | .while token guard body => .while token (guard.complete t) (body.complete t)
  | .empty token => .empty token

def Stmt.completeList (t : Ty) : List Stmt → List Stmt
  | [] => []
  | s :: ss => s.complete t :: Stmt.completeList t ss

end

mutual

def Decl.complete (t : Ty) (s : Engine) : Decl → Decl
  | .const head value => .const { head with ty := some value.ty } value
  | .var head => .var { head with ty := some (completeTy t (s.typeOf head.id)) }
  | .procedure head decls stmt =>
    .procedure { head with ty := some .procedure } (Decl.completeList t s decls) (stmt.complete t)

def Decl.completeList (t : Ty) (s : Engine) : List Decl → List Decl
  | [] => []
  | d :: ds => d.complete t s :: Decl.completeList t s ds

end

def Program.complete (t : Ty) (s : Engine) (p : Program) : Program :=
  { p with block := ⟨Decl.completeList t s p.block.decls, p.block.stmt.complete t⟩ }

/-- The signature that an engine comes to when its empty slots are filled with `t`. -/
def Engine.signature (t : Ty) (s : Engine) : Signature := fun id =>
  s.entries[id]?.map fun entry =>
    (entry.kind, if entry.kind = .procedure then .procedure else completeTy t entry.ty)

/-- Every operator applies to operands of type `t`. -/
def OpTable.TotalAt (T : OpTable) (t : Ty) : Prop := ∀ op, ∃ ty, T op t = some ty

theorem OpTable.totalAt_number : OpTable.TotalAt Op.resultTy? .number := by
  rintro (a | c)
  · cases a <;> exact ⟨_, rfl⟩
  · exact ⟨_, rfl⟩

theorem OpTable.totalAt_looseTy {t : Ty} (h : t.isValue = true) :
    OpTable.TotalAt Op.looseTy? t := by
  rintro (a | c)
  · exact ⟨t, by simp [Op.looseTy?, h]⟩
  · exact ⟨.boolean, by simp [Op.looseTy?, h]⟩

/-! ## Emptying a complete tree -/

theorem Expr.untyped_complete (t : Ty) (e : Expr) : (e.complete t).untyped = e.untyped := by
  induction e with
  | literal | use => rfl
  | binary token ty op lhs rhs ihl ihr => simp [complete, untyped, ihl, ihr]

mutual

theorem Stmt.untyped_complete (t : Ty) : (stmt : Stmt) → (stmt.complete t).untyped = stmt.untyped
  | .assign .. | .output .. => by simp [Stmt.complete, Stmt.untyped, Expr.untyped_complete]
  | .call .. | .input .. | .empty _ => rfl
  | .begin token stmts => by simp [Stmt.complete, Stmt.untyped, Stmt.untyped_completeList t stmts]
  | .if token guard body | .while token guard body => by
    simp [Stmt.complete, Stmt.untyped, Expr.untyped_complete, Stmt.untyped_complete t body]

theorem Stmt.untyped_completeList (t : Ty) :
    (stmts : List Stmt) → Stmt.untypedList (Stmt.completeList t stmts) = Stmt.untypedList stmts
  | [] => rfl
  | stmt :: stmts => by
    simp [Stmt.completeList, Stmt.untypedList, stmt.untyped_complete t,
      Stmt.untyped_completeList t stmts]

end

mutual

theorem Decl.untyped_complete (t : Ty) (s : Engine) :
    (d : Decl) → (d.complete t s).untyped = d.untyped
  | .const .. | .var _ => rfl
  | .procedure head decls stmt => by
    simp [Decl.complete, Decl.untyped, DeclHead.untyped, Decl.untyped_completeList t s decls,
      stmt.untyped_complete t]

theorem Decl.untyped_completeList (t : Ty) (s : Engine) :
    (ds : List Decl) → Decl.untypedList (Decl.completeList t s ds) = Decl.untypedList ds
  | [] => rfl
  | d :: ds => by
    simp [Decl.completeList, Decl.untypedList, d.untyped_complete t s,
      Decl.untyped_completeList t s ds]

end

theorem Program.untyped_complete (t : Ty) (s : Engine) (p : Program) :
    (p.complete t s).untyped = p.untyped := by
  simp [complete, untyped, Block.untyped, Decl.untyped_completeList, Stmt.untyped_complete]

/-! ## Complete trees obey the rules -/

section Rules

variable {T : OpTable} (hT : T.Regular) {t : Ty} (ht : t.isValue = true) (hop : T.TotalAt t)
  {s : Engine}

theorem completeTy_of_value {ty : Ty} (h : ty.isValue = true) : completeTy t (some ty) = ty := by
  simp [completeTy, h]

include ht in
theorem isValue_completeTy (slot : Option Ty) : (completeTy t slot).isValue = true := by
  unfold completeTy
  split
  · split <;> assumption
  · exact ht

theorem Engine.signature_eq {id : Nat} {entry : EngineEntry} (h : s.entries[id]? = some entry) :
    s.signature t id =
      some (entry.kind, if entry.kind = .procedure then .procedure
        else completeTy t (s.typeOf id)) := by
  simp [signature, typeOf, h]

theorem Engine.signature_target {ident : Ident} {use : TargetUse} {id : Nat}
    (h : s.target ident use = .ok id) :
    ident.decl = some id ∧ s.signature t id =
      some (use.kind, if use.kind = .procedure then .procedure
        else completeTy t (s.typeOf id)) := by
  obtain ⟨hdecl, entry, hentry, hkind⟩ := Engine.target_ok h
  rw [Engine.signature_eq hentry, hkind]
  exact ⟨hdecl, rfl⟩

include hT ht hop in
theorem Expr.hasTy_complete {e : Expr} (h : e.Stable s) :
    (e.complete t).HasTy T (s.signature t) (completeTy t e.ty) := by
  induction e with
  | literal token slot value =>
    have hval : value.ty.isValue = true := by cases value <;> rfl
    simp only [Stable] at h
    subst h
    simp only [complete, Expr.ty, completeTy_of_value hval]
    exact .literal token value
  | use ident slot =>
    obtain ⟨id, hid, rfl⟩ := h
    obtain ⟨hdecl, entry, hentry, hkind⟩ := Engine.valueDecl_ok hid
    refine .use hdecl ?_ hkind (isValue_completeTy ht _)
    rw [Engine.signature_eq hentry, if_neg hkind]
  | binary token slot op lhs rhs ihl ihr =>
    obtain ⟨hl, hr, heq, hset⟩ := h
    refine .binary (ihl hl) (heq ▸ ihr hr) ?_
    cases hoperand : lhs.ty with
    | some operand =>
      simp only [hoperand, Op.Settled] at hset
      obtain ⟨r, hres, rfl⟩ := hset
      have hval := OpTable.regular_resultTy.value hres
      have hr : r.isValue = true := by
        rcases op with a | c
        · rw [OpTable.regular_resultTy.arith hres]; exact hval
        · rw [OpTable.regular_resultTy.compare hres]; rfl
      rw [completeTy_of_value hval, completeTy_of_value hr]
      exact hT.agrees hres
    | none =>
      simp only [hoperand, Op.Settled] at hset
      subst hset
      obtain ⟨r, hr⟩ := hop op
      rcases op with a | c
      · have hrt := hT.arith hr
        subst hrt
        exact hr
      · have hrt := hT.compare hr
        subst hrt
        exact hr

mutual

theorem Stmt.wellTyped_complete (hT : T.Regular) (ht : t.isValue = true) (hop : T.TotalAt t) :
    (stmt : Stmt) → stmt.Stable s → (stmt.complete t).WellTyped T (s.signature t)
  | .assign target expr, ⟨id, hid, he, hty⟩ => by
    obtain ⟨hdecl, hsig⟩ := Engine.signature_target hid
    have hexpr := Expr.hasTy_complete hT ht hop he
    rw [hty] at hexpr
    exact .assign hdecl hsig hexpr
  | .call token target, ⟨id, hid⟩ => by
    obtain ⟨hdecl, hsig⟩ := Engine.signature_target hid
    exact .call hdecl hsig
  | .input token target, ⟨id, hid⟩ => by
    obtain ⟨hdecl, hsig⟩ := Engine.signature_target hid
    exact .input hdecl hsig
  | .output token expr, ⟨he, _⟩ => .output (Expr.hasTy_complete hT ht hop he)
  | .begin token stmts, h => .begin (Stmt.wellTyped_completeList hT ht hop stmts h)
  | .if token guard body, ⟨hg, hty, hb⟩ => by
    have hguard := Expr.hasTy_complete hT ht hop hg
    rw [hty] at hguard
    exact .if hguard (Stmt.wellTyped_complete hT ht hop body hb)
  | .while token guard body, ⟨hg, hty, hb⟩ => by
    have hguard := Expr.hasTy_complete hT ht hop hg
    rw [hty] at hguard
    exact .while hguard (Stmt.wellTyped_complete hT ht hop body hb)
  | .empty token, _ => .empty token

theorem Stmt.wellTyped_completeList (hT : T.Regular) (ht : t.isValue = true) (hop : T.TotalAt t) :
    (stmts : List Stmt) → Stmt.StableList s stmts →
      ∀ stmt ∈ Stmt.completeList t stmts, stmt.WellTyped T (s.signature t)
  | [], _ => by simp [Stmt.completeList]
  | stmt :: stmts, ⟨hs, hss⟩ => by
    rw [Stmt.completeList, List.forall_mem_cons]
    exact ⟨Stmt.wellTyped_complete hT ht hop stmt hs,
      Stmt.wellTyped_completeList hT ht hop stmts hss⟩

end

mutual

theorem Decl.wellTyped_complete (hT : T.Regular) (ht : t.isValue = true) (hop : T.TotalAt t) :
    (d : Decl) → d.Stable s → (d.complete t s).WellTyped T (s.signature t)
  | .const .., _ => .const rfl
  | .var _, _ => .var rfl (isValue_completeTy ht _)
  | .procedure _ decls stmt, ⟨_, hdecls, hstmt⟩ =>
    .procedure rfl (Decl.wellTyped_completeList hT ht hop decls hdecls)
      (Stmt.wellTyped_complete hT ht hop stmt hstmt)

theorem Decl.wellTyped_completeList (hT : T.Regular) (ht : t.isValue = true) (hop : T.TotalAt t) :
    (ds : List Decl) → Decl.StableList s ds →
      ∀ d ∈ Decl.completeList t s ds, d.WellTyped T (s.signature t)
  | [], _ => by simp [Decl.completeList]
  | d :: ds, ⟨hd, hds⟩ => by
    rw [Decl.completeList, List.forall_mem_cons]
    exact ⟨Decl.wellTyped_complete hT ht hop d hd, Decl.wellTyped_completeList hT ht hop ds hds⟩

end

end Rules

/-! ## The signature of a complete program -/

/-- The engine has an entry of the right kind for each declaration of the program. -/
def Engine.Matches (s : Engine) (p : Program) : Prop :=
  s.entries.toList.map EngineEntry.kind = p.declarations.map Decl.kind

mutual

theorem Decl.subtree_complete (t : Ty) (s : Engine) :
    (d : Decl) → (d.complete t s).subtree = d.subtree.map (Decl.complete t s)
  | .const .. | .var _ => rfl
  | .procedure head decls stmt => by
    simp [Decl.subtree, Decl.complete, Decl.subtrees_complete t s decls]

theorem Decl.subtrees_complete (t : Ty) (s : Engine) :
    (ds : List Decl) →
      Decl.subtrees (Decl.completeList t s ds) = (Decl.subtrees ds).map (Decl.complete t s)
  | [] => rfl
  | d :: ds => by
    simp [Decl.subtrees, Decl.completeList, Decl.subtree_complete t s d,
      Decl.subtrees_complete t s ds]

end

mutual

theorem Decl.Stable.declared {s : Engine} :
    (d : Decl) → d.Stable s → d.Declared s → ∀ x ∈ d.subtree, x.Declared s
  | .const .., _, h, x, hx => List.mem_singleton.mp hx ▸ h
  | .var _, _, h, x, hx => List.mem_singleton.mp hx ▸ h
  | .procedure head decls stmt, ⟨hdecls, hstable, _⟩, h, x, hx => by
    rw [Decl.subtree, List.mem_cons] at hx
    rcases hx with rfl | hx
    · exact h
    · exact Decl.StableList.declared decls hstable hdecls x hx

theorem Decl.StableList.declared {s : Engine} :
    (ds : List Decl) → Decl.StableList s ds → (∀ d ∈ ds, d.Declared s) →
      ∀ x ∈ Decl.subtrees ds, x.Declared s
  | [], _, _, x, hx => by simp [Decl.subtrees] at hx
  | d :: ds, ⟨hd, hds⟩, h, x, hx => by
    rw [List.forall_mem_cons] at h
    rw [Decl.subtrees, List.mem_append] at hx
    rcases hx with hx | hx
    · exact Decl.Stable.declared d hd h.1 x hx
    · exact Decl.StableList.declared ds hds h.2 x hx

end

namespace Program

variable {T : OpTable} {t : Ty} {s : Engine} {p : Program}

theorem signature_complete (hp : p.Numbered) (hs : s.Matches p)
    (hdecl : ∀ d ∈ p.declarations, d.Declared s) : (p.complete t s).signature = s.signature t := by
  funext id
  have hentry := congrArg (fun kinds : List DeclKind => kinds[id]?) hs
  simp only [List.getElem?_map, Array.getElem?_toList] at hentry
  rw [(hp.of_untyped (p.untyped_complete t s)).signature_eq id]
  simp only [complete, declarations, Decl.subtrees_complete, List.getElem?_map]
  change ((p.declarations[id]?.map (Decl.complete t s)).bind fun d => d.head.ty.map (d.kind, ·)) = _
  cases hd : p.declarations[id]? with
  | none =>
    rw [hd] at hentry
    simp_all [Engine.signature]
  | some d =>
    rw [hd, Option.map_some, Option.map_eq_some_iff] at hentry
    obtain ⟨entry, hentry, hkind⟩ := hentry
    have hid := hp.getElem?_id hd
    have hform := hdecl d (List.mem_of_getElem? hd)
    rw [Engine.signature_eq hentry, hkind]
    subst hid
    cases d with
    | const head value =>
      have hval : value.ty.isValue = true := by cases value <;> rfl
      have hty := hform value.ty rfl
      simp [Decl.complete, Decl.head, Decl.kind, completeTy, hval,
        show s.typeOf head.id = _ from hty]
    | var head => rfl
    | procedure head decls stmt => rfl

/-- **A stable program completed is a typing**, whatever the type that fills its empty slots. -/
theorem isTyping_complete (hT : T.Regular) (ht : t.isValue = true) (hop : T.TotalAt t)
    (hp : p.Numbered) (hs : s.Matches p) (h : p.block.Stable s) :
    IsTyping T p (p.complete t s) := by
  have hsig : (p.complete t s).signature = s.signature t :=
    signature_complete hp hs (Decl.StableList.declared p.block.decls h.decls h.declared)
  refine ⟨p.untyped_complete t s, ?_, ?_⟩ <;> rw [hsig]
  · exact Decl.wellTyped_completeList hT ht hop p.block.decls h.decls
  · exact Stmt.wellTyped_complete hT ht hop p.block.stmt h.stmt

end Program

end PLZero
