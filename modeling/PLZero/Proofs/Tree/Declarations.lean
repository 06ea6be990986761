import PLZero.Tree.Traverse

/-!
# The declarations of a tree

* `Decl.mem_subtrees`, `Decl.subtrees_sublist` — the list of all declarations holds those of a
  block, and with a procedure all that its body declares.
* `Decl.exprsList_subset` — the list of all expressions holds those of every procedure.
* `Program.Numbered` — the declarations of a program are numbered `0, 1, 2, …` in source order.
-/

namespace PLZero

theorem Expr.mem_subexprs_self (e : Expr) : e ∈ e.subexprs := by
  cases e <;> simp [Expr.subexprs]

namespace Decl

theorem mem_subtree_self (d : Decl) : d ∈ d.subtree := by
  cases d <;> simp [subtree]

theorem subtrees_append (A B : List Decl) : subtrees (A ++ B) = subtrees A ++ subtrees B := by
  induction A with
  | nil => rfl
  | cons d A ih => simp [subtrees, ih]

theorem subtree_subset_subtrees {d : Decl} :
    ∀ {ds : List Decl}, d ∈ ds → ∀ x ∈ d.subtree, x ∈ subtrees ds
  | _ :: _, .head _, x, hx => by
    simp only [subtrees, List.mem_append]
    exact .inl hx
  | _ :: _, .tail _ h, x, hx => by
    simp only [subtrees, List.mem_append]
    exact .inr (subtree_subset_subtrees h x hx)

theorem mem_subtrees {d : Decl} {ds : List Decl} (h : d ∈ ds) : d ∈ subtrees ds :=
  subtree_subset_subtrees h d d.mem_subtree_self

mutual

theorem subtree_sublist : (d : Decl) → ∀ {head : DeclHead} {decls : List Decl} {stmt : Stmt},
    .procedure head decls stmt ∈ d.subtree → (subtrees decls).Sublist d.subtree
  | .const _ _, _, _, _, h => by simp [subtree] at h
  | .var _, _, _, _, h => by simp [subtree] at h
  | .procedure head' decls' stmt', head, decls, stmt, h => by
    simp only [subtree, List.mem_cons] at h ⊢
    rcases h with h | h
    · cases h
      exact List.sublist_cons_self ..
    · exact (subtrees_sublist decls' h).cons _

/-- With a procedure come all the declarations inside it. -/
theorem subtrees_sublist : (ds : List Decl) → ∀ {head : DeclHead} {decls : List Decl} {stmt : Stmt},
    .procedure head decls stmt ∈ subtrees ds → (subtrees decls).Sublist (subtrees ds)
  | [], _, _, _, h => by simp [subtrees] at h
  | d :: ds, head, decls, stmt, h => by
    simp only [subtrees, List.mem_append] at h ⊢
    rcases h with h | h
    · exact (subtree_sublist d h).trans (List.sublist_append_left ..)
    · exact (subtrees_sublist ds h).trans (List.sublist_append_right ..)

end

mutual

theorem exprs_subset : (d : Decl) → ∀ {head : DeclHead} {decls : List Decl} {stmt : Stmt},
    .procedure head decls stmt ∈ d.subtree → ∀ e ∈ stmt.exprs, e ∈ d.exprs
  | .const _ _, _, _, _, h, _, _ => by simp [subtree] at h
  | .var _, _, _, _, h, _, _ => by simp [subtree] at h
  | .procedure head' decls' stmt', head, decls, stmt, h, e, he => by
    simp only [subtree, List.mem_cons] at h
    simp only [exprs, List.mem_append]
    rcases h with h | h
    · cases h
      exact .inr he
    · exact .inl (exprsList_subset decls' h e he)

theorem exprsList_subset : (ds : List Decl) → ∀ {head : DeclHead} {decls : List Decl} {stmt : Stmt},
    .procedure head decls stmt ∈ subtrees ds → ∀ e ∈ stmt.exprs, e ∈ exprsList ds
  | [], _, _, _, h, _, _ => by simp [subtrees] at h
  | d :: ds, head, decls, stmt, h, e, he => by
    simp only [subtrees, List.mem_append] at h
    simp only [exprsList, List.mem_append]
    rcases h with h | h
    · exact .inl (exprs_subset d h e he)
    · exact .inr (exprsList_subset ds h e he)

end

end Decl

namespace Program

/-- The declarations have the numbers `0, 1, 2, …` in source order. -/
def Numbered (p : Program) : Prop :=
  p.declarations.map (fun d => d.head.id) = List.range p.declCount

theorem Numbered.nodup {p : Program} (h : p.Numbered) :
    (p.declarations.map fun d => d.head.id).Nodup := by
  rw [h]
  exact List.nodup_range

theorem Numbered.length_eq {p : Program} (h : p.Numbered) :
    p.declarations.length = p.declCount := by
  simpa using congrArg List.length h

theorem Numbered.getElem?_id {p : Program} (h : p.Numbered) {i : Nat} {d : Decl}
    (hd : p.declarations[i]? = some d) : d.head.id = i := by
  have hi : (p.declarations.map fun d => d.head.id)[i]? = some d.head.id := by simp [hd]
  rw [h] at hi
  obtain ⟨_, hi⟩ := List.getElem?_eq_some_iff.mp hi
  simpa using hi.symm

theorem Numbered.getElem?_of_mem {p : Program} (h : p.Numbered) {d : Decl}
    (hd : d ∈ p.declarations) :
    p.declarations[d.head.id]? = some d := by
  obtain ⟨i, hi⟩ := List.mem_iff_getElem?.mp hd
  rwa [h.getElem?_id hi]

end Program

end PLZero
