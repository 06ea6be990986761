import PLZero.Proofs.Scope.Table
import PLZero.Proofs.Tree.Walk
import PLZero.Scope.Resolve

/-!
# Nested tables

A scope that is opened for the body of a procedure is dropped at its end, so that the table is again
what it was.  Each block can as well be given the table that it is resolved in, and need not give
one back.

* `Decl.resolveIn`, `Table.resolveBlockIn` — resolution where tables are handed down.
* `Walk.Restores` — a walk that changes the table does what another one does, and unless it stops,
  the table at its end is a given one.
* `Table.exists_enter` — declarations are entered on top of what the table has below.
* `Decl.restores_resolve` — the body of a procedure leaves nothing behind, and its scope is dropped
  without a fault.
* `Program.resolve_eq` — so resolution with one table is resolution with nested tables.
-/

namespace PLZero

/-! ## Tables that are handed down -/

/-- Resolves a block in the innermost scope of the table, which was opened for it. -/
def Table.resolveBlockIn (t : Table) (decls : List Decl) (stmt : Stmt)
    (bodies : Table → Binding (List Decl)) : Binding Block :=
  let entered := t.enter decls
  match entered.fault with
  | some fault => .stop ⟨entered.tree, stmt⟩ () fault
  | none =>
    (bodies entered.state).andThen stmt (fun _ => stmt.resolve entered.state) Block.mk

mutual

def Decl.resolveIn (t : Table) : Decl → Binding Decl
  | .procedure head decls stmt =>
    (t.push.2.resolveBlockIn decls stmt fun t => Decl.resolveInList t decls).map fun b =>
      (Decl.procedure head b.decls b.stmt).atDepth t.depth
  | d => .done (d.atDepth t.depth) ()

def Decl.resolveInList (t : Table) : List Decl → Binding (List Decl)
  | [] => .done [] ()
  | d :: ds =>
    (d.resolveIn t).andThen (ds.map (Decl.atDepth t.depth)) (fun _ => Decl.resolveInList t ds)
      List.cons

end

/-! ## Walks that restore the table -/

/-- The walks end with the same tree and the same fault.  Where there is none, the table is `t`. -/
structure Walk.Restores {α : Type} (t : Table) (w : Scoping α) (w' : Binding α) : Prop where
  same : w.withState () = w'
  table : w.fault = none → w.state = t

namespace Walk.Restores

variable {α β γ : Type} {t u : Table} {w : Scoping α} {w' : Binding α}

theorem done (t : Table) (a : α) : Restores t (.done a t) (.done a ()) := ⟨rfl, fun _ => rfl⟩

theorem map (h : Restores t w w') (f : α → β) : Restores t (w.map f) (w'.map f) :=
  ⟨congrArg (Walk.map f) h.same, h.table⟩

theorem fault_eq (h : Restores t w w') : w'.fault = w.fault := by
  rw [← h.same]
  rfl

/-- The second part begins with the table that the first has restored. -/
theorem andThen {b : β} {next : Table → Scoping β} {next' : Unit → Binding β} {join : α → β → γ}
    (h : Restores t w w') (hnext : Restores u (next t) (next' ())) :
    Restores u (w.andThen b next join) (w'.andThen b next' join) := by
  have hfault := h.fault_eq
  obtain rfl := h.same
  cases hw : w.fault with
  | some fault =>
    have hstop : w.andThen b next join = .stop (join w.tree b) w.state fault := by
      simp only [Walk.andThen, hw, Walk.stop]
    rw [hstop]
    refine ⟨?_, fun hnone => ?_⟩
    · rw [hw] at hfault
      simp only [Walk.andThen, hfault]
      rfl
    · cases hnone
  | none =>
    have hgo : w.andThen b next join = (next t).map (join w.tree) := by
      simp only [Walk.andThen, hw, h.table hw]
    have hgo' : (w.withState ()).andThen b next' join = (next' ()).map (join w.tree) := by
      rw [hw] at hfault
      simp only [Walk.andThen, hfault]
      rfl
    rw [hgo, hgo']
    exact hnext.map _

/-- The scope of a push is dropped at the end, whatever it holds. -/
theorem dropAfter {scope : Scope} (hopen : t.scopes ≠ [])
    (h : Restores ⟨scope :: t.scopes⟩ w w') : Restores t (Table.dropAfter t.push.1 w) w' := by
  cases hw : w.fault with
  | some fault =>
    have hstop : Table.dropAfter t.push.1 w = w := by
      simp only [Table.dropAfter, Walk.onward, hw]
    rw [hstop]
    refine ⟨h.same, fun hnone => ?_⟩
    rw [hw] at hnone
    cases hnone
  | none =>
    have hdrop := Table.drop_covered hopen scope
    have hdone : Table.dropAfter t.push.1 w = .done w.tree t := by
      simp only [Table.dropAfter, Walk.onward, hw, h.table hw, hdrop]
    rw [hdone]
    refine ⟨?_, fun _ => rfl⟩
    rw [← h.same]
    simp only [Walk.withState, Walk.done, hw]

end Walk.Restores

/-! ## Blocks -/

/-- Declarations go into the innermost scope, and all below it stays as it is. -/
theorem Table.exists_enter {t : Table} (hopen : t.scopes ≠ []) (ds : List Decl) :
    ∃ scope, (t.enter ds).state = ⟨scope :: t.scopes.tail⟩ := by
  induction ds generalizing t with
  | nil =>
    refine ⟨t.scopes.head hopen, ?_⟩
    rw [List.cons_head_tail]
    rfl
  | cons d ds ih =>
    rw [Table.enter]
    cases hinsert : Table.insert d t with
    | ok symbol t' =>
      obtain ⟨scope, scopes, ht, -, -, rfl⟩ := Table.insert_eq_ok_iff.mp hinsert
      obtain ⟨scope', hstate⟩ := ih (List.cons_ne_nil _ scopes)
      refine ⟨scope', ?_⟩
      rw [ht]
      exact hstate
    | error f t' =>
      refine ⟨t.scopes.head hopen, ?_⟩
      rw [List.cons_head_tail]
      exact Table.eq_of_insert_error hinsert

/-- A block leaves its own declarations in the innermost scope, and nothing else. -/
theorem Table.exists_restores_resolveBlock {t : Table} (hopen : t.scopes ≠ []) (ds : List Decl)
    (stmt : Stmt) {bodies : Table → Scoping (List Decl)} {bodies' : Table → Binding (List Decl)}
    (hbodies : ∀ u : Table, u.scopes ≠ [] → (bodies u).Restores u (bodies' u)) :
    ∃ scope, (t.resolveBlock ds stmt bodies).Restores ⟨scope :: t.scopes.tail⟩
      (t.resolveBlockIn ds stmt bodies') := by
  obtain ⟨scope, hstate⟩ := Table.exists_enter hopen ds
  refine ⟨scope, ?_⟩
  unfold Table.resolveBlock Table.resolveBlockIn
  cases hentered : (t.enter ds).fault with
  | some fault =>
    simp only [hentered]
    refine ⟨rfl, fun hnone => ?_⟩
    cases hnone
  | none =>
    simp only [hentered, hstate]
    exact (hbodies _ (List.cons_ne_nil _ _)).andThen ⟨rfl, fun _ => rfl⟩

mutual

theorem Decl.restores_resolve {t : Table} (hopen : t.scopes ≠ []) :
    (d : Decl) → (d.resolve t).Restores t (d.resolveIn t)
  | .const .. | .var _ => .done t _
  | .procedure head decls stmt => by
    have hpushed : t.push.2.scopes ≠ [] := List.cons_ne_nil _ _
    obtain ⟨scope, hblock⟩ := Table.exists_restores_resolveBlock hpushed decls stmt
      fun u hu => Decl.restores_resolveList hu decls
    rw [Decl.resolve, Decl.resolveIn]
    exact (hblock.dropAfter hopen).map _

theorem Decl.restores_resolveList {t : Table} (hopen : t.scopes ≠ []) :
    (ds : List Decl) → (Decl.resolveList t ds).Restores t (Decl.resolveInList t ds)
  | [] => .done t _
  | d :: ds => by
    rw [Decl.resolveList, Decl.resolveInList]
    exact (Decl.restores_resolve hopen d).andThen (Decl.restores_resolveList hopen ds)

end

/-- **One table does for all blocks.** -/
theorem Program.resolve_eq (p : Program) :
    p.resolve = (Table.empty.resolveBlockIn p.block.decls p.block.stmt fun t =>
      Decl.resolveInList t p.block.decls).map fun b => { p with block := b } := by
  have hempty : Table.empty.scopes ≠ [] := List.cons_ne_nil _ _
  obtain ⟨scope, hblock⟩ := Table.exists_restores_resolveBlock hempty p.block.decls p.block.stmt
    fun u hu => Decl.restores_resolveList hu p.block.decls
  exact (hblock.map _).same

end PLZero
