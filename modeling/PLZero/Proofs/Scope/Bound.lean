import PLZero.Proofs.Tree.Walk
import PLZero.Proofs.Typing.Rules
import PLZero.Proofs.Scope.Nested

/-!
# Programs whose names are bound

A program is bound if every use of a name has the number of a declaration in one of the blocks
around it, and declarations and uses carry the depths of the blocks they stand in.

* `Program.bound_resolve` — resolution that finds no fault leaves a bound program.
* `Program.Bound.of_untyped` — types have no part in it.
-/

namespace PLZero

/-- The numbers that the blocks around a place declare, the innermost block first. -/
abbrev Scopes := List (List Nat)

/-- The numbers of the declarations of a block. -/
def Decl.ids (ds : List Decl) : List Nat := ds.map fun d => d.head.id

/-- The slot holds the depth of the innermost block. -/
def AtDepth (Δ : Scopes) (nest : Option Nat) : Prop := nest.map (· + 1) = some Δ.length

def Ident.Bound (Δ : Scopes) (ident : Ident) : Prop :=
  AtDepth Δ ident.nest ∧ ∃ id ids, ident.decl = some id ∧ ids ∈ Δ ∧ id ∈ ids

def Expr.Bound (Δ : Scopes) : Expr → Prop
  | .literal .. => True
  | .use ident _ => ident.Bound Δ
  | .binary _ _ _ lhs rhs => lhs.Bound Δ ∧ rhs.Bound Δ

mutual

def Stmt.Bound (Δ : Scopes) : Stmt → Prop
  | .assign target expr => target.Bound Δ ∧ expr.Bound Δ
  | .call _ target => target.Bound Δ
  | .input _ target => target.Bound Δ
  | .output _ expr => expr.Bound Δ
  | .begin _ stmts => Stmt.BoundList Δ stmts
  | .if _ guard body => guard.Bound Δ ∧ body.Bound Δ
  | .while _ guard body => guard.Bound Δ ∧ body.Bound Δ
  | .empty _ => True

def Stmt.BoundList (Δ : Scopes) : List Stmt → Prop
  | [] => True
  | s :: ss => s.Bound Δ ∧ Stmt.BoundList Δ ss

end

mutual

def Decl.Bound (Δ : Scopes) : Decl → Prop
  | .procedure head decls stmt =>
    AtDepth Δ head.nest ∧ Decl.BoundList (Decl.ids decls :: Δ) decls ∧
      stmt.Bound (Decl.ids decls :: Δ)
  | d => AtDepth Δ d.head.nest

def Decl.BoundList (Δ : Scopes) : List Decl → Prop
  | [] => True
  | d :: ds => d.Bound Δ ∧ Decl.BoundList Δ ds

end

structure Program.Bound (p : Program) : Prop where
  decls : Decl.BoundList [Decl.ids p.block.decls] p.block.decls
  stmt : p.block.stmt.Bound [Decl.ids p.block.decls]

theorem Expr.Bound.subexprs {Δ : Scopes} {e x : Expr} (h : e.Bound Δ) (hx : x ∈ e.subexprs) :
    x.Bound Δ := by
  induction e with
  | literal | use =>
    rw [List.mem_singleton.mp hx]
    exact h
  | binary token ty op lhs rhs ihl ihr =>
    simp only [Expr.subexprs, List.cons_append, List.mem_cons, List.mem_append] at hx
    rcases hx with rfl | hx | hx
    · exact h
    · exact ihl h.1 hx
    · exact ihr h.2 hx

mutual

theorem Stmt.Bound.exprs {Δ : Scopes} {x : Expr} :
    {stmt : Stmt} → stmt.Bound Δ → x ∈ stmt.exprs → x.Bound Δ
  | .assign .., h, hx => h.2.subexprs hx
  | .output .., h, hx => h.subexprs hx
  | .begin .., h, hx => Stmt.BoundList.exprs h hx
  | .if .., h, hx | .while .., h, hx =>
    (List.mem_append.mp hx).elim h.1.subexprs (Stmt.Bound.exprs h.2)
  | .call .., _, hx | .input .., _, hx | .empty _, _, hx => nomatch hx

theorem Stmt.BoundList.exprs {Δ : Scopes} {x : Expr} :
    {stmts : List Stmt} → Stmt.BoundList Δ stmts → x ∈ Stmt.exprsList stmts → x.Bound Δ
  | [], _, hx => nomatch hx
  | _ :: _, h, hx => (List.mem_append.mp hx).elim (Stmt.Bound.exprs h.1) (Stmt.BoundList.exprs h.2)

end

/-! ## Tables -/

/-- Each scope holds only symbols of declarations with the numbers given for it. -/
inductive Scope.Within : List Scope → Scopes → Prop where
  | nil : Within [] []
  | cons {scope : Scope} {ids : List Nat} {scopes : List Scope} {Δ : Scopes} :
      (∀ x ∈ scope, x.2.decl ∈ ids) → Within scopes Δ → Within (scope :: scopes) (ids :: Δ)

def Table.Within (t : Table) (Δ : Scopes) : Prop := Scope.Within t.scopes Δ

namespace Table

variable {t : Table} {Δ : Scopes}

theorem Within.depth_eq {ids : List Nat} (h : t.Within (ids :: Δ)) :
    t.depth + 1 = (ids :: Δ).length := by
  have hlen : ∀ {scopes : List Scope} {Δ : Scopes}, Scope.Within scopes Δ →
      scopes.length = Δ.length := by
    intro scopes Δ h
    induction h with
    | nil => rfl
    | cons _ _ ih => rw [List.length_cons, List.length_cons, ih]
  rw [Table.depth, hlen h]
  rfl

theorem Within.get? {name : String} {symbol : Symbol} (h : t.Within Δ)
    (hget : t.get? name = some symbol) :
    ∃ ids ∈ Δ, symbol.decl ∈ ids := by
  unfold Within at h
  unfold Table.get? at hget
  generalize t.scopes = scopes at h hget
  induction h with
  | nil => cases hget
  | @cons scope ids scopes Δ hscope _ ih =>
    rw [List.findSome?_cons] at hget
    split at hget
    · rename_i symbol' hlookup
      cases hget
      obtain ⟨l₁, l₂, hl, -⟩ := List.lookup_eq_some_iff.mp hlookup
      refine ⟨ids, List.mem_cons_self .., hscope (name, symbol) ?_⟩
      rw [hl]
      exact List.mem_append_right _ (List.mem_cons_self ..)
    · obtain ⟨ids', hids', hmem⟩ := ih hget
      exact ⟨ids', List.mem_cons_of_mem _ hids', hmem⟩

theorem Within.insert {t' : Table} {d : Decl} {symbol : Symbol} {ids : List Nat}
    (h : t.Within (ids :: Δ)) (hd : d.head.id ∈ ids) (hinsert : insert d t = .ok symbol t') :
    t'.Within (ids :: Δ) := by
  obtain ⟨scope, scopes, ht, -, -, rfl⟩ := insert_eq_ok_iff.mp hinsert
  rw [Table.Within, ht] at h
  cases h with
  | cons hinner houter =>
    refine .cons ?_ houter
    rw [List.forall_mem_cons]
    exact ⟨hd, hinner⟩

theorem Within.enter {ds : List Decl} {ids : List Nat} (h : t.Within (ids :: Δ))
    (hds : ∀ d ∈ ds, d.head.id ∈ ids) (hfault : (t.enter ds).fault = none) :
    (t.enter ds).state.Within (ids :: Δ) := by
  induction ds generalizing t with
  | nil => exact h
  | cons d ds ih =>
    rw [List.forall_mem_cons] at hds
    rw [Table.enter] at hfault ⊢
    cases hinsert : Table.insert d t with
    | ok symbol t' =>
      rw [hinsert] at hfault
      exact ih (h.insert hds.1 hinsert) hds.2 hfault
    | error f t' =>
      rw [hinsert] at hfault
      cases hfault

end Table

/-! ## Resolution -/

section Resolve

variable {t : Table} {Δ : Scopes}

theorem Ident.bound_resolve {ident : Ident} (ht : t.Within Δ) (h : (ident.resolve t).fault = none) :
    (ident.resolve t).tree.Bound Δ := by
  unfold Ident.resolve at h ⊢
  cases hget : t.get? ident.name with
  | none => simp [hget, Walk.stop] at h
  | some symbol =>
    obtain ⟨ids, hids, hmem⟩ := ht.get? hget
    cases Δ with
    | nil => cases hids
    | cons => exact ⟨congrArg some ht.depth_eq, symbol.decl, ids, rfl, hids, hmem⟩

theorem Expr.bound_resolve {e : Expr} (ht : t.Within Δ) (h : (e.resolve t).fault = none) :
    (e.resolve t).tree.Bound Δ := by
  induction e with
  | literal => trivial
  | use ident ty => exact Ident.bound_resolve ht h
  | binary token ty op lhs rhs ihl ihr =>
    obtain ⟨hl, hr⟩ := Walk.fault_andThen.mp h
    rw [Expr.resolve, Walk.tree_andThen_eq hl]
    exact ⟨ihl hl, ihr hr⟩

mutual

theorem Stmt.bound_resolve (ht : t.Within Δ) :
    (stmt : Stmt) → (stmt.resolve t).fault = none → (stmt.resolve t).tree.Bound Δ
  | .assign target expr, h => by
    obtain ⟨ht', he⟩ := Walk.fault_andThen.mp h
    rw [Stmt.resolve, Walk.tree_andThen_eq ht']
    exact ⟨Ident.bound_resolve ht ht', Expr.bound_resolve ht he⟩
  | .call token target, h => Ident.bound_resolve ht h
  | .input token target, h => Ident.bound_resolve ht h
  | .output token expr, h => Expr.bound_resolve ht h
  | .begin token stmts, h => Stmt.bound_resolveList ht stmts h
  | .if token guard body, h => by
    obtain ⟨hg, hb⟩ := Walk.fault_andThen.mp h
    rw [Stmt.resolve, Walk.tree_andThen_eq hg]
    exact ⟨Expr.bound_resolve ht hg, Stmt.bound_resolve ht body hb⟩
  | .while token guard body, h => by
    obtain ⟨hg, hb⟩ := Walk.fault_andThen.mp h
    rw [Stmt.resolve, Walk.tree_andThen_eq hg]
    exact ⟨Expr.bound_resolve ht hg, Stmt.bound_resolve ht body hb⟩
  | .empty token, _ => trivial

theorem Stmt.bound_resolveList (ht : t.Within Δ) :
    (stmts : List Stmt) → (Stmt.resolveList t stmts).fault = none →
      Stmt.BoundList Δ (Stmt.resolveList t stmts).tree
  | [], _ => trivial
  | stmt :: stmts, h => by
    obtain ⟨hs, hss⟩ := Walk.fault_andThen.mp h
    rw [Stmt.resolveList, Walk.tree_andThen_eq hs]
    exact ⟨Stmt.bound_resolve ht stmt hs, Stmt.bound_resolveList ht stmts hss⟩

end

theorem Table.bound_resolveBlock {ds : List Decl} {stmt : Stmt}
    {bodies : Table → Binding (List Decl)} (ht : t.Within ([] :: Δ))
    (hbodies : ∀ t, t.Within (Decl.ids ds :: Δ) → (bodies t).fault = none →
      Decl.ids (bodies t).tree = Decl.ids ds ∧
        Decl.BoundList (Decl.ids ds :: Δ) (bodies t).tree)
    (h : (t.resolveBlockIn ds stmt bodies).fault = none) :
    Decl.ids (t.resolveBlockIn ds stmt bodies).tree.decls = Decl.ids ds ∧
      Decl.BoundList (Decl.ids ds :: Δ) (t.resolveBlockIn ds stmt bodies).tree.decls ∧
      (t.resolveBlockIn ds stmt bodies).tree.stmt.Bound (Decl.ids ds :: Δ) := by
  have hwithin : t.Within (Decl.ids ds :: Δ) := by
    unfold Table.Within at ht ⊢
    generalize t.scopes = scopes at ht ⊢
    cases ht with
    | cons hinner houter => exact .cons (fun x hx => absurd (hinner x hx) List.not_mem_nil) houter
  unfold Table.resolveBlockIn at h ⊢
  simp only at h ⊢
  cases hf : (t.enter ds).fault with
  | some f => simp [hf, Walk.stop] at h
  | none =>
    have hentered := hwithin.enter (fun d hd => List.mem_map_of_mem hd) hf
    simp only [hf] at h ⊢
    obtain ⟨hb, hs⟩ := Walk.fault_andThen.mp h
    obtain ⟨hids, hbound⟩ := hbodies _ hentered hb
    rw [Walk.tree_andThen_eq hb]
    exact ⟨hids, hbound, Stmt.bound_resolve hentered stmt hs⟩

mutual

theorem Decl.bound_resolve {t : Table} {ids : List Nat} {Δ : Scopes} (ht : t.Within (ids :: Δ)) :
    (d : Decl) → (d.resolveIn t).fault = none →
      (d.resolveIn t).tree.head.id = d.head.id ∧ (d.resolveIn t).tree.Bound (ids :: Δ)
  | .const .., _ => ⟨rfl, congrArg some ht.depth_eq⟩
  | .var _, _ => ⟨rfl, congrArg some ht.depth_eq⟩
  | .procedure head decls stmt, h => by
    have hpush : t.push.2.Within ([] :: ids :: Δ) := .cons (by simp) ht
    obtain ⟨hids, hdecls, hstmt⟩ := Table.bound_resolveBlock hpush
      (fun t ht hf => Decl.bound_resolveList ht decls hf) h
    refine ⟨rfl, congrArg some ht.depth_eq, ?_, ?_⟩
    · simpa only [Decl.resolveIn, Walk.map, hids] using hdecls
    · simpa only [Decl.resolveIn, Walk.map, hids] using hstmt

theorem Decl.bound_resolveList {t : Table} {ids : List Nat} {Δ : Scopes}
    (ht : t.Within (ids :: Δ)) :
    (ds : List Decl) → (Decl.resolveInList t ds).fault = none →
      Decl.ids (Decl.resolveInList t ds).tree = Decl.ids ds ∧
        Decl.BoundList (ids :: Δ) (Decl.resolveInList t ds).tree
  | [], _ => ⟨rfl, trivial⟩
  | d :: ds, h => by
    obtain ⟨hd, hds⟩ := Walk.fault_andThen.mp h
    rw [Decl.resolveInList, Walk.tree_andThen_eq hd]
    obtain ⟨hid, hbound⟩ := Decl.bound_resolve ht d hd
    obtain ⟨hids, hbounds⟩ := Decl.bound_resolveList ht ds hds
    refine ⟨?_, hbound, hbounds⟩
    simp only [Decl.ids, List.map_cons] at hids ⊢
    rw [hid, hids]

end

/-- **Resolution without a fault leaves a bound program.** -/
theorem Program.bound_resolve {p q : Program} (h : p.resolve = .done q ()) : q.Bound := by
  have hempty : Table.empty.Within [[]] := .cons (by simp) .nil
  rw [p.resolve_eq] at h
  have hfault := congrArg Walk.fault h
  have hq := congrArg Walk.tree h
  obtain ⟨hids, hdecls, hstmt⟩ := Table.bound_resolveBlock hempty
    (fun t ht hf => Decl.bound_resolveList ht p.block.decls hf) hfault
  rw [← hids] at hdecls hstmt
  subst hq
  exact ⟨hdecls, hstmt⟩

end Resolve

/-! ## Bound trees with types -/

theorem Expr.bound_untyped {Δ : Scopes} (e : Expr) : e.untyped.Bound Δ ↔ e.Bound Δ := by
  induction e with
  | literal | use => rfl
  | binary token ty op lhs rhs ihl ihr => simp only [untyped, Bound, ihl, ihr]

mutual

theorem Stmt.bound_untyped {Δ : Scopes} : (stmt : Stmt) → (stmt.untyped.Bound Δ ↔ stmt.Bound Δ)
  | .assign .. | .output .. => by simp only [Stmt.untyped, Stmt.Bound, Expr.bound_untyped]
  | .call .. | .input .. | .empty _ => Iff.rfl
  | .begin _ stmts => Stmt.boundList_untyped stmts
  | .if _ guard body | .while _ guard body => by
    simp only [Stmt.untyped, Stmt.Bound, Expr.bound_untyped, Stmt.bound_untyped body]

theorem Stmt.boundList_untyped {Δ : Scopes} :
    (stmts : List Stmt) → (Stmt.BoundList Δ (Stmt.untypedList stmts) ↔ Stmt.BoundList Δ stmts)
  | [] => Iff.rfl
  | stmt :: stmts => by
    simp only [Stmt.untypedList, Stmt.BoundList, Stmt.bound_untyped stmt,
      Stmt.boundList_untyped stmts]

end

theorem Decl.ids_untypedList (ds : List Decl) : Decl.ids (Decl.untypedList ds) = Decl.ids ds := by
  induction ds with
  | nil => rfl
  | cons d ds ih =>
    simp only [Decl.ids, Decl.untypedList, List.map_cons] at ih ⊢
    rw [ih]
    cases d <;> rfl

mutual

theorem Decl.bound_untyped {Δ : Scopes} : (d : Decl) → (d.untyped.Bound Δ ↔ d.Bound Δ)
  | .const .. | .var _ => Iff.rfl
  | .procedure _ decls stmt => by
    simp only [Decl.untyped, Decl.Bound, Decl.ids_untypedList, Decl.boundList_untyped decls,
      stmt.bound_untyped, DeclHead.untyped]

theorem Decl.boundList_untyped {Δ : Scopes} :
    (ds : List Decl) → (Decl.BoundList Δ (Decl.untypedList ds) ↔ Decl.BoundList Δ ds)
  | [] => Iff.rfl
  | d :: ds => by
    simp only [Decl.untypedList, Decl.BoundList, Decl.bound_untyped d, Decl.boundList_untyped ds]

end

theorem Program.bound_untyped (p : Program) : p.untyped.Bound ↔ p.Bound := by
  have hdecls : Decl.ids p.untyped.block.decls = Decl.ids p.block.decls :=
    Decl.ids_untypedList p.block.decls
  constructor
  · rintro ⟨hd, hs⟩
    rw [hdecls] at hd hs
    exact ⟨(Decl.boundList_untyped _).mp hd, (Stmt.bound_untyped _).mp hs⟩
  · rintro ⟨hd, hs⟩
    refine ⟨?_, ?_⟩ <;> rw [hdecls]
    · exact (Decl.boundList_untyped _).mpr hd
    · exact (Stmt.bound_untyped _).mpr hs

theorem Program.Bound.of_untyped {p q : Program} (hp : p.Bound) (h : q.untyped = p.untyped) :
    q.Bound := by
  rw [← Program.bound_untyped, h, Program.bound_untyped]
  exact hp

end PLZero
