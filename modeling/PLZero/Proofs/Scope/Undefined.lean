import PLZero.Proofs.Tree.Tokens
import PLZero.Proofs.Tree.Walk
import PLZero.Proofs.Scope.Nested

/-!
# What resolution can stop at

Where no block declares a name twice, all declarations of a block can be entered, and resolution
stops at nothing but a use without a declaration.

* `Table.enter_fault` — declarations with names of their own are entered.
* `Program.binds_resolve` — resolution keeps the tokens of the tree, and stops at one of them.
-/

namespace PLZero

/-- The fault is a use without a declaration, at one of the tokens. -/
def ScopeFault.In (T : Token → Prop) : ScopeFault → Prop
  | .undefined token => T token
  | _ => False

/-- The walk keeps the tokens of its tree, as `P` says, and its fault is at one of them. -/
abbrev Walk.Binds {α : Type} (w : Binding α) (T : Token → Prop) (P : α → Prop) : Prop :=
  w.Meets P (fun _ => True) (ScopeFault.In T)

variable {T : Token → Prop}

/-! ## Uses -/

theorem Ident.binds_resolve (t : Table) {ident : Ident} (h : T ident.token) :
    (ident.resolve t).Binds T (fun i => T i.token) := by
  unfold Ident.resolve
  split
  · exact .done h trivial
  · exact .stop h trivial h

theorem Expr.binds_resolve (t : Table) {e : Expr} (h : e.From T) :
    (e.resolve t).Binds T (Expr.From T) := by
  induction e with
  | literal => exact .done h trivial
  | use ident ty => exact (Ident.binds_resolve t h).map fun _ hi => hi
  | binary token ty op lhs rhs ihl ihr =>
    exact (ihl h.2.1).andThen h.2.2 (fun _ _ => ihr h.2.2) fun _ _ hl hr => ⟨h.1, hl, hr⟩

mutual

theorem Stmt.binds_resolve (t : Table) : (stmt : Stmt) → stmt.From T →
    (stmt.resolve t).Binds T (Stmt.From T)
  | .assign _ _, h =>
    (Ident.binds_resolve t h.1).andThen h.2 (fun _ _ => Expr.binds_resolve t h.2)
      fun _ _ hi he => ⟨hi, he⟩
  | .call _ _, h => (Ident.binds_resolve t h.2).map fun _ hi => ⟨h.1, hi⟩
  | .input _ _, h => (Ident.binds_resolve t h.2).map fun _ hi => ⟨h.1, hi⟩
  | .output _ _, h => (Expr.binds_resolve t h.2).map fun _ he => ⟨h.1, he⟩
  | .begin _ stmts, h => (Stmt.binds_resolveList t stmts h.2).map fun _ hs => ⟨h.1, hs⟩
  | .if _ _ body, h =>
    (Expr.binds_resolve t h.2.1).andThen h.2.2 (fun _ _ => Stmt.binds_resolve t body h.2.2)
      fun _ _ hg hb => ⟨h.1, hg, hb⟩
  | .while _ _ body, h =>
    (Expr.binds_resolve t h.2.1).andThen h.2.2 (fun _ _ => Stmt.binds_resolve t body h.2.2)
      fun _ _ hg hb => ⟨h.1, hg, hb⟩
  | .empty _, h => .done h trivial

theorem Stmt.binds_resolveList (t : Table) : (stmts : List Stmt) → Stmt.FromList T stmts →
    (Stmt.resolveList t stmts).Binds T (Stmt.FromList T)
  | [], h => .done h trivial
  | stmt :: stmts, h =>
    (Stmt.binds_resolve t stmt h.1).andThen h.2 (fun _ _ => Stmt.binds_resolveList t stmts h.2)
      fun _ _ hs hss => ⟨hs, hss⟩

end

/-! ## Declarations -/

theorem Table.enter_fault {t : Table} {scope : Scope} {scopes : List Scope} {ds : List Decl}
    (ht : t.scopes = scope :: scopes) (hnodup : (ds.map Decl.name).Nodup)
    (hnew : ∀ d ∈ ds, scope.lookup d.name = none) : (t.enter ds).fault = none := by
  induction ds generalizing t scope with
  | nil => rfl
  | cons d ds ih =>
    rw [List.map_cons, List.nodup_cons] at hnodup
    rw [List.forall_mem_cons] at hnew
    rw [Table.enter, Table.insert_of_new ht hnew.1]
    refine ih rfl hnodup.2 fun d' hd' => ?_
    have hne : d'.name ≠ d.name := fun heq => hnodup.1 (heq ▸ List.mem_map_of_mem hd')
    rw [List.lookup_cons, beq_false_of_ne hne]
    exact hnew.2 d' hd'

theorem Table.binds_resolveBlock {t : Table} {scopes : List Scope} {ds : List Decl} {stmt : Stmt}
    {bodies : Table → Binding (List Decl)} (ht : t.scopes = [] :: scopes)
    (hnodup : (ds.map Decl.name).Nodup) (hstmt : stmt.From T)
    (hbodies : ∀ t, (bodies t).Binds T (Decl.FromList T)) :
    (t.resolveBlockIn ds stmt bodies).Binds T (Block.From T) := by
  have henter : (t.enter ds).fault = none := Table.enter_fault ht hnodup (by simp)
  unfold Table.resolveBlockIn
  simp only [henter]
  exact (hbodies _).andThen hstmt (fun _ _ => Stmt.binds_resolve _ stmt hstmt)
    fun _ _ hds hs => ⟨hds, hs⟩

theorem Decl.From.atDepth {d : Decl} (depth : Nat) (h : d.From T) : (d.atDepth depth).From T := by
  cases d <;> exact h

theorem Decl.FromList.map_atDepth {ds : List Decl} (depth : Nat) (h : Decl.FromList T ds) :
    Decl.FromList T (ds.map (Decl.atDepth depth)) := by
  rw [Decl.fromList_iff] at h ⊢
  rw [List.forall_mem_map]
  exact fun d hd => (h d hd).atDepth depth

mutual

theorem Decl.binds_resolve (t : Table) : (d : Decl) → d.From T → d.Distinct →
    (d.resolveIn t).Binds T (Decl.From T)
  | .const .., h, _ | .var _, h, _ => .done h trivial
  | .procedure _ decls stmt, h, hd => by
    have hblock := Table.binds_resolveBlock (t := t.push.2) rfl hd.1 h.2.2 fun t =>
      Decl.binds_resolveList t decls h.2.1 hd.2
    rw [Decl.resolveIn]
    exact hblock.map fun _ hb => ⟨h.1, hb.1, hb.2⟩

theorem Decl.binds_resolveList (t : Table) : (ds : List Decl) → Decl.FromList T ds →
    Decl.DistinctList ds →
    (Decl.resolveInList t ds).Binds T (Decl.FromList T)
  | [], h, _ => .done h trivial
  | d :: ds, h, hd =>
    (Decl.binds_resolve t d h.1 hd.1).andThen (h.2.map_atDepth t.depth)
      (fun _ _ => Decl.binds_resolveList t ds h.2 hd.2) fun _ _ hd hds => ⟨hd, hds⟩

end

/-- **Resolution stops only at a use without a declaration**, where no block declares a name twice.
-/
theorem Program.binds_resolve {p : Program} (h : p.From T) (hd : p.Distinct) :
    p.resolve.Binds T (Program.From T) := by
  have hblock := Table.binds_resolveBlock (t := Table.empty) rfl hd.nodup h.2 fun t =>
    Decl.binds_resolveList t p.block.decls h.1 hd.decls
  rw [p.resolve_eq]
  exact hblock.map fun _ hb => hb

end PLZero
