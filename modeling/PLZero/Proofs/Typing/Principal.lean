import PLZero.Proofs.Typing.Fixpoint

/-!
# Programs whose types are forced

When no pass has failed, the strict pass at the end fails exactly if a slot is still empty.  An
empty slot can be filled with any value type over the loose table, so the strict pass succeeds
exactly if there is only one typing over that table; and then the tree that inference leaves is
that typing.

* `Program.eq_written_of_isTyping` — with every slot full, what the passes have come to is the only
  typing, over any table.
* `Program.filled_of_complete_eq` — if two types fill the empty slots alike, there are none.
* `Program.isTyping_inferTypes`, `Program.inferTypes_ok_of_unique` — when inference succeeds, and
  with which tree.
-/

namespace PLZero

open Slotted (slots)

/-! ## Trees below a typing with every slot full -/

theorem Expr.Below.eq_of_filled {e e' : Expr} (h : e.Below e') (hfull : Filled e) : e = e' := by
  induction h with
  | literal hslot =>
    rw [Expr.filled_literal] at hfull
    rw [hslot.resolve_left hfull]
  | use hslot =>
    rw [Expr.filled_use] at hfull
    rw [hslot.resolve_left hfull]
  | binary hslot _ _ ihl ihr =>
    rw [Expr.filled_binary] at hfull
    rw [hslot.resolve_left hfull.1, ihl hfull.2.1, ihr hfull.2.2]

mutual

theorem Stmt.Below.eq_of_filled {stmt stmt' : Stmt} (h : stmt.Below stmt') (hfull : Filled stmt) :
    stmt = stmt' := by
  cases h with
  | assign he => rw [he.eq_of_filled hfull]
  | call | input | empty => rfl
  | output he => rw [he.eq_of_filled hfull]
  | begin hss => rw [Stmt.BelowList.eq_of_filled hss hfull]
  | «if» hg hb =>
    obtain ⟨hfg, hfb⟩ := Stmt.filled_if.mp hfull
    rw [hg.eq_of_filled hfg, Stmt.Below.eq_of_filled hb hfb]
  | «while» hg hb =>
    obtain ⟨hfg, hfb⟩ := Stmt.filled_while.mp hfull
    rw [hg.eq_of_filled hfg, Stmt.Below.eq_of_filled hb hfb]

theorem Stmt.BelowList.eq_of_filled {ss ss' : List Stmt} (h : Stmt.BelowList ss ss')
    (hfull : Filled ss) : ss = ss' := by
  cases h with
  | nil => rfl
  | cons hs hss =>
    obtain ⟨hfs, hfss⟩ := Stmt.filled_cons.mp hfull
    rw [Stmt.Below.eq_of_filled hs hfs, Stmt.BelowList.eq_of_filled hss hfss]

end

theorem DeclHead.writeBack_eq {s : Engine} {head head' : DeclHead}
    (h : head.untyped = head'.untyped) (hty : head'.ty = s.typeOf head'.id) :
    { head with ty := s.typeOf head.id } = head' := by
  cases head
  cases head'
  simp_all [DeclHead.untyped]

mutual

theorem Decl.Below.writeBack_eq {s : Engine} {d d' : Decl} (h : d.Below d') (hfull : Filled d)
    (hty : ∀ x ∈ d'.subtree, x.head.ty = s.typeOf x.head.id) : d.writeBack s = d' := by
  have hself := hty d' d'.mem_subtree_self
  cases h with
  | const hhead => rw [Decl.writeBack, DeclHead.writeBack_eq hhead hself]
  | var hhead => rw [Decl.writeBack, DeclHead.writeBack_eq hhead hself]
  | procedure hhead hds hstmt =>
    obtain ⟨hfds, hfstmt⟩ := Decl.filled_procedure.mp hfull
    rw [Decl.writeBack, DeclHead.writeBack_eq hhead hself, hstmt.eq_of_filled hfstmt,
      Decl.BelowList.writeBack_eq hds hfds fun x hx => hty x (List.mem_cons_of_mem _ hx)]

theorem Decl.BelowList.writeBack_eq {s : Engine} {ds ds' : List Decl} (h : Decl.BelowList ds ds')
    (hfull : Filled ds) (hty : ∀ x ∈ Decl.subtrees ds', x.head.ty = s.typeOf x.head.id) :
    Decl.writeBackList s ds = ds' := by
  cases h with
  | nil => rfl
  | cons hd hds =>
    obtain ⟨hfd, hfds⟩ := Decl.filled_cons.mp hfull
    simp only [Decl.subtrees, List.forall_mem_append] at hty
    rw [Decl.writeBackList, Decl.Below.writeBack_eq hd hfd hty.1,
      Decl.BelowList.writeBack_eq hds hfds hty.2]

end

/-! ## Completing a tree in two ways -/

theorem Expr.ty_complete (t : Ty) (e : Expr) : (e.complete t).ty = some (completeTy t e.ty) := by
  cases e <;> rfl

theorem Expr.subexprs_complete (t : Ty) (e : Expr) :
    (e.complete t).subexprs = e.subexprs.map (Expr.complete t) := by
  induction e with
  | literal | use => rfl
  | binary token ty op lhs rhs ihl ihr => simp [Expr.complete, Expr.subexprs, ihl, ihr]

mutual

theorem Stmt.exprs_complete (t : Ty) :
    (stmt : Stmt) → (stmt.complete t).exprs = stmt.exprs.map (Expr.complete t)
  | .assign .. | .output .. => by simp [Stmt.complete, Stmt.exprs, Expr.subexprs_complete]
  | .call .. | .input .. | .empty _ => rfl
  | .begin token stmts => by simp [Stmt.complete, Stmt.exprs, Stmt.exprs_completeList t stmts]
  | .if token guard body | .while token guard body => by
    simp [Stmt.complete, Stmt.exprs, Expr.subexprs_complete, Stmt.exprs_complete t body]

theorem Stmt.exprs_completeList (t : Ty) :
    (stmts : List Stmt) →
      Stmt.exprsList (Stmt.completeList t stmts) = (Stmt.exprsList stmts).map (Expr.complete t)
  | [] => rfl
  | stmt :: stmts => by
    simp [Stmt.completeList, Stmt.exprsList, stmt.exprs_complete t, Stmt.exprs_completeList t stmts]

end

mutual

theorem Decl.exprs_complete (t : Ty) (s : Engine) :
    (d : Decl) → (d.complete t s).exprs = d.exprs.map (Expr.complete t)
  | .const .. | .var _ => rfl
  | .procedure head decls stmt => by
    simp [Decl.complete, Decl.exprs, Decl.exprs_completeList t s decls, stmt.exprs_complete t]

theorem Decl.exprs_completeList (t : Ty) (s : Engine) :
    (ds : List Decl) →
      Decl.exprsList (Decl.completeList t s ds) = (Decl.exprsList ds).map (Expr.complete t)
  | [] => rfl
  | d :: ds => by
    simp [Decl.completeList, Decl.exprsList, d.exprs_complete t s, Decl.exprs_completeList t s ds]

end

theorem ne_none_of_completeTy {slot : Option Ty}
    (h : completeTy .number slot = completeTy .boolean slot) : slot ≠ none := by
  rintro rfl
  cases h

namespace Program

variable {p p' : Program} {s : Engine}

theorem expressions_complete (t : Ty) (s : Engine) (p : Program) :
    (p.complete t s).expressions = p.expressions.map (Expr.complete t) := by
  simp [complete, expressions, Decl.exprs_completeList, Stmt.exprs_complete]

theorem declarations_complete (t : Ty) (s : Engine) (p : Program) :
    (p.complete t s).declarations = p.declarations.map (Decl.complete t s) :=
  Decl.subtrees_complete t s p.block.decls

/-- If two types fill the empty slots alike, there are none. -/
theorem filled_of_complete_eq (h : p.complete .number s = p.complete .boolean s) :
    Filled p.block ∧ ∀ d ∈ p.declarations, s.Knows d := by
  constructor
  · have hexprs := congrArg expressions h
    rw [expressions_complete, expressions_complete, List.map_inj_left] at hexprs
    intro hmem
    obtain ⟨e, he, hty⟩ := List.mem_map.mp hmem
    have hslot := congrArg Expr.ty (hexprs e he)
    rw [Expr.ty_complete, Expr.ty_complete, Option.some.injEq] at hslot
    exact ne_none_of_completeTy hslot hty
  · have hdecls := congrArg declarations h
    rw [declarations_complete, declarations_complete, List.map_inj_left] at hdecls
    intro d hd hform
    have hslot := congrArg (fun d => d.head.ty) (hdecls d hd)
    cases d with
    | const head value => cases hform
    | procedure head decls stmt => cases hform
    | var head =>
      simp only [Decl.complete, Decl.head, Option.some.injEq] at hslot
      exact ne_none_of_completeTy hslot

/-! ## The only typing -/

theorem full_of_knows (hp : p.Numbered) (hs : s.Matches p)
    (hdecl : ∀ d ∈ p.declarations, d.Declared s) (hknows : ∀ d ∈ p.declarations, s.Knows d) :
    s.Full := by
  intro id entry hentry
  have hkinds := congrArg (fun kinds : List DeclKind => kinds[id]?) hs
  simp only [List.getElem?_map, Array.getElem?_toList, hentry, Option.map_some] at hkinds
  obtain ⟨d, hd, _⟩ := Option.map_eq_some_iff.mp hkinds.symm
  have hid := hp.getElem?_id hd
  have hmem := List.mem_of_getElem? hd
  have hknown : s.typeOf id ≠ none := by
    rw [← hid]
    cases hform : d.formTy? with
    | some ty => simp [hdecl d hmem ty hform]
    | none => exact hknows d hmem hform
  simpa [Engine.typeOf, hentry] using hknown

/-- **With every slot full, what the passes have come to is the only typing.** -/
theorem eq_written_of_isTyping {T : OpTable} {q : Program} (hT : T.Regular) (hp : p.Numbered)
    (hreached : Engine.Reached p s p') (hfilled : Filled p'.block) (hfull : s.Full)
    (hq : IsTyping T p q) : q = Engine.written s p' p'.block := by
  obtain ⟨hbelow, hunder⟩ := hreached.below hT hq
  obtain ⟨hfds, hfs⟩ := Block.filled_iff.mp hfilled
  have hq' := hp.of_untyped hq.same
  have hdecls : Decl.writeBackList s p'.block.decls = q.block.decls := by
    refine hbelow.decls.writeBack_eq hfds fun x hx => ?_
    obtain ⟨ty, hty, hsig⟩ := hq.wellTyped.records hq' x hx
    obtain ⟨entry, hentry, _, hslot⟩ := hunder _ _ _ hsig
    rw [hty, Engine.typeOf, hentry]
    exact (hslot.resolve_left (hfull _ _ hentry)).symm
  have hsame := hq.same.trans hreached.same.symm
  rw [Engine.written, hdecls, hbelow.stmt.eq_of_filled hfs]
  cases q
  cases p'
  simp only [untyped, mk.injEq] at hsame ⊢
  exact ⟨trivial, hsame.2⟩

/-! ## Inference -/

/-- Inference that succeeds has settled the program and found every slot full. -/
theorem inferTypes_ok (hp : p.Fresh) {n : Nat}
    (h : p.inferTypes.2 = .ok n) :
    ∃ s p', Engine.Reached p s p' ∧ p'.block.Stable s ∧ Filled p'.block ∧ s.Full ∧
      p.inferTypes.1 = Engine.written s p' p'.block := by
  obtain ⟨m, -, heq⟩ := p.inferTypes_loops
  have hpassed : p.passes.fault = none := by
    rw [heq] at h
    exact (Engine.conclude_ok h).1
  obtain ⟨s, p', hreached, hpasses, hstable, hunmark⟩ := passes_settled hp hpassed
  rw [hpasses, Engine.conclude, Walk.onward_done, Engine.pass_eq] at heq
  cases hv : (s.visit true p').fault with
  | some f =>
    rw [heq, hv] at h
    cases h
  | none =>
    rw [← hunmark] at hstable
    obtain ⟨hdone, hfilled, hknows⟩ := Engine.filled_of_strict_visit hstable hv
    rw [hunmark] at hstable hknows hdone
    have hfull : s.Full := full_of_knows (hp.numbered.of_untyped hreached.same)
      hreached.matches_tree
      (Decl.StableList.declared p'.block.decls hstable.decls hstable.declared) hknows
    refine ⟨s, p', hreached, hstable, hfilled, hfull, ?_⟩
    rw [heq, hdone]
    rfl

/-- Inference that succeeds gives a typing, and there is no other, over any table. -/
theorem isTyping_inferTypes (hp : p.Fresh) {n : Nat}
    (h : p.inferTypes.2 = .ok n) :
    IsTyping Op.resultTy? p p.inferTypes.1 ∧
      ∀ {T : OpTable} {q : Program}, T.Regular → IsTyping T p q → q = p.inferTypes.1 := by
  obtain ⟨s, p', hreached, hstable, hfilled, hfull, htree⟩ := inferTypes_ok hp h
  rw [htree]
  have honly {T : OpTable} {q : Program} (hT : T.Regular) (hq : IsTyping T p q) :
      q = Engine.written s p' p'.block :=
    eq_written_of_isTyping hT hp.numbered hreached hfilled hfull hq
  have hnumber := isTyping_of_settled OpTable.regular_resultTy rfl OpTable.totalAt_number
    hp.numbered hreached hstable
  exact ⟨honly OpTable.regular_resultTy hnumber ▸ hnumber, honly⟩

/-- Inference succeeds if there is a typing, and only one over the loose table. -/
theorem inferTypes_ok_of_unique (hp : p.Fresh)
    (htyping : ∃ q, IsTyping Op.resultTy? p q)
    (honly : ∀ q q', IsTyping Op.looseTy? p q → IsTyping Op.looseTy? p q' → q = q') :
    ∃ n, p.inferTypes.2 = .ok n := by
  obtain ⟨s, p', hreached, hpasses, hstable, hunmark⟩ :=
    passes_settled hp ((passes_fault_iff hp).mpr htyping)
  have hcomplete {t : Ty} (ht : t.isValue = true) : IsTyping Op.looseTy? p (p'.complete t s) :=
    isTyping_of_settled OpTable.regular_looseTy ht (OpTable.totalAt_looseTy ht) hp.numbered
      hreached hstable
  obtain ⟨hfilled, hknows⟩ := filled_of_complete_eq
    (honly _ _ (hcomplete (t := .number) rfl) (hcomplete (t := .boolean) rfl))
  have hfull : s.Full := full_of_knows (hp.numbered.of_untyped hreached.same) hreached.matches_tree
    (Decl.StableList.declared p'.block.decls hstable.decls hstable.declared) hknows
  have hvisit : s.visit true p' = .done p'.block s.unmark := by
    refine Engine.visit_of_stable true (by rwa [hunmark]) fun _ => ?_
    rw [hunmark]
    exact ⟨hfilled, hfull, hknows⟩
  obtain ⟨n, -, heq⟩ := p.inferTypes_loops
  refine ⟨n, ?_⟩
  rw [heq, hpasses, Engine.conclude, Walk.onward_done, Engine.pass_eq, hvisit]
  rfl

end Program

end PLZero
